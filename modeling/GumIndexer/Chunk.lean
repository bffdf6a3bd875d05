import GumIndexer.Orphans
import GumIndexer.Overflow
import GumIndexer.Watchlist

/-!
# GumIndexer.Chunk

What one sweep of a chunk does.

A sweep is a loop of guarded upserts that retires watches on the way, and a
second loop over what is still pending.  Seen from one watch the first loop is
a sequence of `Turns`, and every effect of the two loops is read off them: the
row of the watch, the events it gets (`Turns.tags`, `Step.resolve_watch`), and
the rows of `transfers` (`counted_rows`, `resolved_rows`).  If the cache
mirrors the active watches, the state is one the sweepers can reach and the
logs are those of the chunk, this is the specification `ChunkSwept`, in which
neither matching nor the loops occur (`sweep_chunk_iff`).
-/

namespace GumIndexer

open Base

variable {db db' : Db} {chain : ChainSpec} {a : Act} {log : LogId}

/-! ## Rows -/

/-- The transfers after a row was confirmed. -/
theorem Confirms.get? {ts ts' : Table Transfer Transfer.key} {row : Transfer}
    (h : Confirms ts row ts') (hrow : row.status = .confirmed) (log : LogId) :
    ts'.get? log =
      if row.key = log then some (((ts.get? log).getD row).withStatus .confirmed)
      else ts.get? log := by
  have hself : row.withStatus .confirmed = row := by
    rw [← hrow]
    rfl
  cases h with
  | fresh insert =>
      rw [Table.get?_insertNew insert]
      split
      · next hk =>
          subst hk
          rw [Table.get?_of_insertNew insert, Option.getD_none, hself]
      · rfl
  | @pending t found pending =>
      have hk := Table.key_of_get? found
      rw [Table.get?_replace, Transfer.key_withStatus, hk]
      split
      · next heq =>
          subst heq
          rw [found]
          rfl
      · rfl

/-- The row of a counted match: the pending one if there is one. -/
def MatchedTransfer.confirmedRow (m : MatchedTransfer) (chainId : Nat) (old : Option Transfer) :
    Transfer :=
  (old.getD (m.row chainId m.watch.id .confirmed)).withStatus .confirmed

/-- The transfers after a match was counted. -/
theorem Counts.get? {w : Watch} {m : MatchedTransfer} (h : Counts chain db w m db') (log : LogId) :
    db'.transfers.get? log =
      if m.logId chain.chainId = log then
        some (m.confirmedRow chain.chainId (db.transfers.get? log))
      else db.transfers.get? log := by
  obtain ⟨transfers, hc, post⟩ := h.step
  rw [← h.watch] at hc
  rw [post.transfers, hc.get? rfl]
  rfl

theorem Step.get?_count {chainId : Nat} {m : MatchedTransfer} (h : Step db (.count chainId m) db')
    (log : LogId) :
    db'.transfers.get? log =
      if m.logId chainId = log then some (m.confirmedRow chainId (db.transfers.get? log))
      else db.transfers.get? log := by
  cases h with
  | count counts _ => exact counts.get? log
  | complete counts _ post => rw [post.transfers]; exact counts.get? log

/-- **The rows of the counted matches are confirmed**, and no others change. -/
theorem counted_rows {chainId : Nat} {cs : List MatchedTransfer}
    (h : Trace Step db (cs.map (.count chainId)) db') (distinct : (cs.map (·.logId chainId)).Nodup) :
    (∀ m ∈ cs, db'.transfers.get? (m.logId chainId) =
        some (m.confirmedRow chainId (db.transfers.get? (m.logId chainId)))) ∧
      ∀ log ∉ cs.map (·.logId chainId), db'.transfers.get? log = db.transfers.get? log := by
  induction cs generalizing db with
  | nil =>
      cases h
      exact ⟨fun m hm => absurd hm List.not_mem_nil, fun _ _ => rfl⟩
  | cons c cs ih =>
      rw [List.map_cons, List.nodup_cons] at distinct
      cases h with
      | cons head tail =>
          obtain ⟨hcounted, hother⟩ := ih tail distinct.2
          constructor
          · intro m hm
            rcases List.mem_cons.mp hm with rfl | hm
            · rw [hother _ distinct.1, head.get?_count, if_pos rfl]
            · have hne : c.logId chainId ≠ m.logId chainId := fun heq =>
                distinct.1 (heq ▸ List.mem_map_of_mem hm)
              rw [hcounted m hm, head.get?_count, if_neg hne]
          · intro log hlog
            rw [List.map_cons, List.mem_cons, not_or] at hlog
            rw [hother log hlog.2, head.get?_count, if_neg (Ne.symm hlog.1)]

/-- **The rows of the leftovers are resolved**, and no others change. -/
theorem resolved_rows {canonical : List (B256 × Nat)} {ts : List Transfer}
    (h : Trace Step db (ts.map (resolveAct canonical)) db')
    (hts : db.transfers.Lists (Leftover chain.chainId) ts) :
    (∀ t ∈ ts, db'.transfers.get? t.key = some (t.resolved canonical)) ∧
      ∀ log ∉ ts.map Transfer.key, db'.transfers.get? log = db.transfers.get? log := by
  induction ts generalizing db with
  | nil =>
      cases h
      exact ⟨fun m hm => absurd hm List.not_mem_nil, fun _ _ => rfl⟩
  | cons t ts ih =>
      cases h with
      | @cons _ s₁ _ _ _ head tail =>
          have hset := head.transfers_resolve
          have hrest : s₁.transfers.Lists (Leftover chain.chainId) ts := by
            rw [hset]
            exact hts.tail rfl
          obtain ⟨hresolved, hother⟩ := ih tail hrest
          have hnodup := hts.nodup
          rw [List.map_cons, List.nodup_cons] at hnodup
          constructor
          · intro u hu
            rcases List.mem_cons.mp hu with rfl | hu
            · rw [hother _ hnodup.1, hset]
              exact Table.get?_replace_self (a := u.resolved canonical)
                (hts.found u List.mem_cons_self)
            · exact hresolved u hu
          · intro log hlog
            rw [List.map_cons, List.mem_cons, not_or] at hlog
            rw [hother log hlog.2, hset]
            exact Table.get?_replace_of_ne (Ne.symm hlog.1)

/-! ## Events -/

/-- What an event is about. -/
def OutboxRow.tag (e : OutboxRow) : EventType × Option LogId := (e.eventType, e.log?)

/-- What the events of a watch are about, oldest first. -/
def Db.tags (db : Db) (id : Uuid) : List (EventType × Option LogId) :=
  (db.events id).map OutboxRow.tag

/-- A post adds one tag, to the events of its watch. -/
theorem Post.tags {w w' : Watch} {type : EventType} {view : Option TransferView}
    {transfers : Table Transfer Transfer.key} (h : Post chain db w w' type view transfers db')
    (id : Uuid) :
    db'.tags id = db.tags id ++
      if w.id = id then [(type, view.map fun v => ⟨chain.chainId, v.blockHash, v.logIndex⟩)]
      else [] := by
  rw [Db.tags, h.events, List.map_append, Db.tags]
  split <;> rfl

/-- The tag of the event that reports a count. -/
def MatchedTransfer.tag (m : MatchedTransfer) (chainId : Nat) : EventType × Option LogId :=
  (.paymentConfirmed, some (m.logId chainId))

/-- The tags of the event that completes a watch, if it became complete. -/
def Watch.closing (w w' : Watch) : List (EventType × Option LogId) :=
  if w.status = .active ∧ w'.status = .completed then [(.thresholdReached, none)] else []

/-- A watch that keeps its status is not closed. -/
theorem Watch.closing_of_status_eq {w w' : Watch} (h : w'.status = w.status) : w.closing w' = [] := by
  refine if_neg ?_
  rintro ⟨ha, hc⟩
  rw [h, ha] at hc
  contradiction

section Turn

variable {tx tx' : SweepTx} {m : MatchedTransfer} {ms got : List MatchedTransfer} {w w' : Watch}

/-- What a watch got in a turn is what was reported for it. -/
theorem Turn.got_eq {cs : List MatchedTransfer} (turn : Turn chain tx tx' m ms w w' got)
    (h : tx'.out.confirmed = tx.out.confirmed ++ cs) : got = cs.filter fun m => m.watch.id = w.id := by
  have hconfirmed := turn.confirmed
  rw [h, List.filter_append] at hconfirmed
  exact (List.append_cancel_left hconfirmed).symm

/-- A turn in which nothing happens to the watch. -/
theorem Turn.tags_idle (turn : Turn chain tx tx' m ms w w' got) (hgot : got = [])
    (hw' : tx'.db.watches.get? w.id = some w) (htags : tx'.db.tags w.id = tx.db.tags w.id) :
    tx'.db.tags w.id = tx.db.tags w.id ++ (got.map (·.tag chain.chainId) ++ w.closing w') := by
  obtain rfl : w' = w := Option.some.inj (turn.found.symm.trans hw')
  rw [htags, hgot, Watch.closing_of_status_eq rfl, List.map_nil, List.append_nil, List.append_nil]

/-- **The events of a turn**: one for each match the watch got, and the one
that completes it. -/
theorem Turn.tags (turn : Turn chain tx tx' m ms w w' got) (h : Counted chain tx m tx')
    (hw : tx.db.watches.get? w.id = some w) :
    tx'.db.tags w.id = tx.db.tags w.id ++ (got.map (·.tag chain.chainId) ++ w.closing w') := by
  have hnone : tx'.out.confirmed = tx.out.confirmed → got = [] := by
    intro heq
    have hgot : got = ([] : List MatchedTransfer).filter fun m => m.watch.id = w.id :=
      turn.got_eq (by rw [heq, List.append_nil])
    exact hgot
  cases h with
  | inactive _ => exact turn.tags_idle (hnone rfl) hw rfl
  | settled _ => exact turn.tags_idle (hnone rfl) hw rfl
  | @below _ u counts below confirmed _ =>
      obtain ⟨transfers, -, post⟩ := counts.step
      have hgot := turn.got_eq confirmed
      rw [List.filter_singleton, counts.watch] at hgot
      have htags := post.tags w.id
      by_cases hid : u.id = w.id
      · have hw' := post.get?_watch
        rw [Watch.id_credit, hid, turn.found] at hw'
        obtain rfl := Option.some.inj hw'
        obtain rfl : w = u := by
          have hfound := post.found
          rw [hid, hw] at hfound
          exact Option.some.inj hfound
        have hclose : w.closing (w.credit m.amount.toNat) = [] := Watch.closing_of_status_eq rfl
        simp only [decide_true] at hgot
        rw [htags, if_pos rfl, hgot, hclose]
        rfl
      · rw [if_neg hid, List.append_nil] at htags
        refine turn.tags_idle (by simpa [hid] using hgot) ?_ htags
        rw [post.watches, Table.get?_replace_of_ne, hw]
        exact hid
  | @reached _ db₁ u counts reached post confirmed _ =>
      obtain ⟨transfers, -, post₁⟩ := counts.step
      have hgot := turn.got_eq confirmed
      rw [List.filter_singleton, counts.watch] at hgot
      have htags := post.tags w.id
      rw [post₁.tags w.id, Watch.id_credit] at htags
      by_cases hid : u.id = w.id
      · have hw' := post.get?_watch
        rw [Watch.id_retire, Watch.id_credit, hid, turn.found] at hw'
        obtain rfl := Option.some.inj hw'
        obtain rfl : w = u := by
          have hfound := post₁.found
          rw [hid, hw] at hfound
          exact Option.some.inj hfound
        have hclose : w.closing ((w.credit m.amount.toNat).retire .completed db₁.now) =
            [(.thresholdReached, none)] := if_pos ⟨counts.active, rfl⟩
        simp only [decide_true] at hgot
        rw [htags, if_pos rfl, if_pos rfl, hgot, hclose, List.append_assoc]
        rfl
      · rw [if_neg hid, if_neg hid, List.append_nil, List.append_nil] at htags
        refine turn.tags_idle (by simpa [hid] using hgot) ?_ htags
        rw [post.watches, Table.get?_replace_of_ne, post₁.watches, Table.get?_replace_of_ne, hw]
        · exact hid
        · exact hid

end Turn

/-- The closing events of two stretches. -/
theorem Watch.closing_trans {w w₁ w' : Watch} {got got' : List MatchedTransfer}
    (h : w.Took w₁ got) (h' : w₁.Took w' got') (hgot' : w₁.status ≠ .active → got' = [])
    (chainId : Nat) :
    got.map (·.tag chainId) ++ w.closing w₁ ++ (got'.map (·.tag chainId) ++ w₁.closing w') =
      (got ++ got').map (·.tag chainId) ++ w.closing w' := by
  by_cases ha : w₁.status = .active
  · have hw : w.status = .active := by
      have hstatus := h.status
      split at hstatus
      · rw [hstatus] at ha
        contradiction
      · exact hstatus.symm.trans ha
    have hopen : w.closing w₁ = [] := closing_of_status_eq (ha.trans hw.symm)
    have hsame : w₁.closing w' = w.closing w' := by rw [closing, closing, ha, hw]
    rw [hopen, hsame, List.append_nil, List.map_append, List.append_assoc]
  · have hstatus : w'.status = w₁.status := by
      rw [h'.status, if_neg fun hc => ha hc.1]
    have hsame : w.closing w' = w.closing w₁ := by rw [closing, closing, hstatus]
    rw [hgot' ha, closing_of_status_eq hstatus, hsame, List.append_nil, List.map_nil, List.append_nil,
      List.append_nil]

/-- **The events of the counting loop**, seen from one watch. -/
theorem Turns.tags {tx tx' : SweepTx} {ms got : List MatchedTransfer} {w w' : Watch}
    (h : Turns chain tx' w' tx ms w got) :
    tx'.db.tags w.id = tx.db.tags w.id ++ (got.map (·.tag chain.chainId) ++ w.closing w') := by
  induction h with
  | nil _ _ => rw [Watch.closing_of_status_eq rfl]; simp
  | @cons tx tx₁ m ms w w₁ got got' counted found turn rest ih =>
      have hidle : w₁.status ≠ .active → got' = [] := fun ha => by
        rw [← rest.take, Watch.take_of_inactive ha]
      rw [turn.took.same.id] at ih
      rw [ih, turn.tags counted found, List.append_assoc,
        Watch.closing_trans turn.took rest.took hidle]

/-- **Resolving a leftover, seen from a watch**: an active watch gets an event
if the leftover is its own and not canonical. -/
theorem Step.resolve_watch {canonical : List (B256 × Nat)} {t : Transfer} {w : Watch}
    (h : Step db (resolveAct canonical t) db') (hw : db.watches.get? w.id = some w) :
    ∃ n, db'.watches.get? w.id = some { w with nextEventSeq := n } ∧
      db'.tags w.id = db.tags w.id ++
        if w.status = .active ∧ t.watchId = w.id ∧ (t.blockHash, t.logIndex) ∉ canonical then
          [(.paymentOrphaned, some t.key)]
        else [] := by
  unfold resolveAct at h
  split at h
  · next hc =>
      cases h
      exact ⟨w.nextEventSeq, hw, by rw [if_neg fun hn => hn.2.2 hc, List.append_nil]; rfl⟩
  · next hc =>
      cases h with
      | orphanRetired _ _ retired =>
          refine ⟨w.nextEventSeq, hw, ?_⟩
          rw [if_neg, List.append_nil]
          · rfl
          · rintro ⟨ha, howner, -⟩
            exact retired w (by rw [howner]; exact hw) ha
      | @orphan _ chain _ u _ _ home amount watch active _ post =>
          have htags := post.tags w.id
          by_cases hid : u.id = w.id
          · obtain rfl : w = u := by
              have hfound := post.found
              rw [hid, hw] at hfound
              exact Option.some.inj hfound
            refine ⟨w.nextEventSeq + 1, post.get?_watch, ?_⟩
            have hkey : t.key = ⟨chain.chainId, t.blockHash, t.logIndex⟩ := by rw [← home]; rfl
            rw [htags, if_pos rfl, if_pos ⟨active, watch, hc⟩, hkey]
            rfl
          · refine ⟨w.nextEventSeq, ?_, ?_⟩
            · rw [post.watches, Table.get?_replace_of_ne, hw]
              exact hid
            · rw [htags, if_neg hid, if_neg]
              rintro ⟨-, howner, -⟩
              exact hid (watch.symm.trans howner)

/-- The tags of the leftovers that are reported to a watch. -/
def Watch.orphanTags (w : Watch) (canonical : List (B256 × Nat)) (ts : List Transfer) :
    List (EventType × Option LogId) :=
  if w.status = .active then
    (ts.filter fun t => t.watchId = w.id ∧ (t.blockHash, t.logIndex) ∉ canonical).map
      fun t => (.paymentOrphaned, some t.key)
  else []

/-- **The loop over the leftovers, seen from a watch.** -/
theorem resolveAll_watch {canonical : List (B256 × Nat)} {ts : List Transfer} {w : Watch}
    (h : Trace Step db (ts.map (resolveAct canonical)) db') (hw : db.watches.get? w.id = some w) :
    ∃ n, db'.watches.get? w.id = some { w with nextEventSeq := n } ∧
      db'.tags w.id = db.tags w.id ++ w.orphanTags canonical ts := by
  induction ts generalizing db w with
  | nil =>
      cases h
      refine ⟨w.nextEventSeq, hw, ?_⟩
      unfold Watch.orphanTags
      split <;> simp
  | cons t ts ih =>
      cases h with
      | cons head tail =>
          obtain ⟨n, hn, htags⟩ := head.resolve_watch hw
          obtain ⟨n', hn', htags'⟩ := ih (w := { w with nextEventSeq := n }) tail hn
          refine ⟨n', hn', ?_⟩
          change db'.tags w.id = _ at htags'
          rw [htags', htags, List.append_assoc]
          congr 1
          unfold Watch.orphanTags
          by_cases ha : w.status = .active
          · simp only [ha, if_true, true_and, List.filter_cons, decide_eq_true_eq]
            split <;> simp
          · simp [ha]

/-! ## One watch -/

/-- The watch after `amount` was counted toward it at the time `now` and
`events` events were queued for it. -/
def Watch.gain (w : Watch) (amount events now : Nat) : Watch :=
  { w with
    confirmedAmount := w.confirmedAmount + amount
    status := if w.status = .active ∧ w.threshold ≤ w.confirmedAmount + amount then .completed
      else w.status
    nextEventSeq := w.nextEventSeq + events
    completedAt := if w.status = .active ∧ w.threshold ≤ w.confirmedAmount + amount then some now
      else w.completedAt }

theorem Watch.Progress.webhookUrl {w w' : Watch} {ts : List EventType} (h : w.Progress ts w') :
    w'.webhookUrl = w.webhookUrl := by
  cases h <;> rfl

/-- No step of a trace changes the URL of a watch. -/
theorem Trace.webhookUrl {acts : List Act} {id : Uuid} {w w' : Watch} (h : Trace Step db acts db')
    (hw : db.watches.get? id = some w) (hw' : db'.watches.get? id = some w') :
    w'.webhookUrl = w.webhookUrl := by
  obtain ⟨u, hu, hurl⟩ := h.invariant
    (fun d => ∃ u, d.watches.get? id = some u ∧ u.webhookUrl = w.webhookUrl)
    (fun d a d' hstep hd => by
      obtain ⟨u, hu, hurl⟩ := hd
      obtain ⟨u', _, hu', _, hprogress⟩ := hstep.advances hu
      exact ⟨u', hu', hprogress.webhookUrl.trans hurl⟩) ⟨w, hw, rfl⟩
  rw [hw'] at hu
  rw [Option.some.inj hu, hurl]

theorem Step.now_count {c : Nat} {m : MatchedTransfer} (h : Step db (.count c m) db') :
    db'.now = db.now := by
  cases h with
  | count counts _ =>
      obtain ⟨_, -, post⟩ := counts.step
      exact post.now
  | complete counts _ post =>
      obtain ⟨_, -, post₁⟩ := counts.step
      exact post.now.trans post₁.now

/-- **When a counting loop completes a watch**, `completed_at` is the time of
its transaction. -/
theorem Trace.completedAt {c : Nat} {cs : List MatchedTransfer} {id : Uuid} {w w' : Watch}
    (h : Trace Step db (cs.map (.count c)) db') (hw : db.watches.get? id = some w)
    (hw' : db'.watches.get? id = some w') :
    w'.completedAt = if w'.status = w.status then w.completedAt else some db.now := by
  induction cs generalizing db w with
  | nil =>
      cases h
      rw [hw] at hw'
      obtain rfl := Option.some.inj hw'
      rw [if_pos rfl]
  | cons m cs ih =>
      cases h with
      | @cons _ _ db₁ _ _ head tail =>
          obtain ⟨w₁, hw₁, hlater⟩ := head.later hw
          have hrest := ih tail hw₁
          obtain rfl := Table.key_of_get? hw₁
          obtain ⟨u, hu, hlater'⟩ := tail.invariant (Db.Retains · w₁) (fun _ _ _ => Db.Retains.step)
            (Db.Retains.of_get? hw₁)
          rw [hw'] at hu
          obtain rfl := Option.some.inj hu
          rw [hrest, head.now_count]
          rcases head.watch_update hw₁ with hold | hreg | ⟨u, hu, hupdate⟩
          · rw [hw] at hold
            rw [Option.some.inj hold]
          · contradiction
          · rw [hw] at hu
            obtain rfl := Option.some.inj hu
            rcases hupdate.completedAt with ⟨hstatus, hcompleted⟩ | ⟨ha, hna, hcompleted⟩
            · rw [hstatus, hcompleted]
            · have hne : w'.status ≠ w.status := fun heq => hna (hlater'.active (heq.trans ha))
              rw [if_neg hne, hcompleted, ite_self]

/-- The counter of a watch is the number of its events. -/
theorem EventLog.length {w : Watch} (h : EventLog db w) : (db.tags w.id).length = w.nextEventSeq := by
  have hlen := congrArg List.length h.seqs
  rw [List.length_map, List.length_range'] at hlen
  rw [Db.tags, List.length_map, hlen]

/-- What a counting loop leaves of a watch, and the event numbers used. -/
theorem Watch.Took.eq_gain {w w₁ : Watch} {ms : List MatchedTransfer} {n k now : Nat}
    (h : w.Took w₁ ms) (hurl : w₁.webhookUrl = w.webhookUrl) (hn : n = w.nextEventSeq + k)
    (hcompleted : w₁.completedAt = if w₁.status = w.status then w.completedAt else some now) :
    { w₁ with nextEventSeq := n } = w.gain (total MatchedTransfer.units ms) k now := by
  have hstatus := h.status
  rw [h.amount] at hstatus
  have hat : w₁.completedAt =
      if w.status = .active ∧ w.threshold ≤ w.confirmedAmount + total MatchedTransfer.units ms then
        some now
      else w.completedAt := by
    rw [hcompleted, hstatus]
    split
    · next hc => rw [hc.1, if_neg (by decide)]
    · rw [if_pos rfl]
  obtain ⟨hsame, hamount, -, hbackfill⟩ := h
  obtain ⟨h1, h2, h3, h4, h5, h6, h7, h8, h9⟩ := hsame
  cases w
  cases w₁
  simp only [Watch.gain, Watch.mk.injEq]
  exact ⟨h1, h2, h3, h4, h5, h6, hamount, hurl, hstatus, h7, hn, h8, hat, h9, hbackfill⟩

/-- Counting canonical matches leaves the rows of other logs as they are. -/
theorem leftovers_counted {chainId toBlock : Nat} {cs : List MatchedTransfer}
    {canonical : List (B256 × Nat)} (h : Trace Step db (cs.map (.count chainId)) db')
    (hcs : ∀ m ∈ cs, (m.blockHash, m.logIndex) ∈ canonical) (p : Transfer → Prop)
    [DecidablePred p] :
    (leftovers db' chainId toBlock).filter
        (fun t => p t ∧ (t.blockHash, t.logIndex) ∉ canonical) =
      (leftovers db chainId toBlock).filter
        (fun t => p t ∧ (t.blockHash, t.logIndex) ∉ canonical) := by
  have hrows : ∀ q : Transfer → Bool, (∀ t, (t.blockHash, t.logIndex) ∈ canonical → q t = false) →
      db'.transfers.rows.filter q = db.transfers.rows.filter q := by
    intro q hq
    refine h.invariant_mem (fun d => d.transfers.rows.filter q = db.transfers.rows.filter q)
      (fun d a d' ha hstep hd => ?_) rfl
    obtain ⟨m, hm, rfl⟩ := List.mem_map.mp ha
    rw [← hd]
    have hcounts : ∀ {chain : ChainSpec} {u : Watch} {d₁ : Db}, Counts chain d u m d₁ →
        d₁.transfers.rows.filter q = d.transfers.rows.filter q := by
      intro chain u d₁ counts
      obtain ⟨transfers, hc, post⟩ := counts.step
      rw [post.transfers]
      cases hc with
      | fresh insert => exact Table.filter_insertNew insert (hq _ (hcs m hm))
      | @pending t found _ =>
          refine Table.filter_replace fun r hr => hq r ?_
          rw [Transfer.key_withStatus, Table.key_of_get? found, MatchedTransfer.key_row] at hr
          have hhash : r.blockHash = m.blockHash := congrArg LogId.blockHash hr
          have hindex : r.logIndex = m.logIndex := congrArg LogId.logIndex hr
          rw [hhash, hindex]
          exact hcs m hm
    cases hstep with
    | count counts _ => exact hcounts counts
    | complete counts _ post => rw [post.transfers]; exact hcounts counts
  have htotal : Std.Total fun a b : Transfer => a.blockNumber < b.blockNumber ∨
      a.blockNumber = b.blockNumber ∧ a.logIndex ≤ b.logIndex := ⟨fun a b => by omega⟩
  have htrans : IsTrans Transfer fun a b => a.blockNumber < b.blockNumber ∨
      a.blockNumber = b.blockNumber ∧ a.logIndex ≤ b.logIndex := ⟨fun a b c => by omega⟩
  unfold leftovers
  rw [filter_insertionSort, filter_insertionSort, List.filter_filter, List.filter_filter, hrows]
  intro t ht
  simp [ht]

/-! ## The sweep -/

section Sweep

variable {cache : WatchCache} {discovered : List WatchKey} {toBlock : Nat} {logs : List Log}
  {tx : SweepTx}

/-- Different logs give different matches. -/
theorem nodup_sweepMatches (once : (logs.map fun l => (l.blockHash, l.logIndex)).Nodup) :
    ((sweepMatches chain cache logs).map (·.logId chain.chainId)).Nodup := by
  unfold sweepMatches
  exact ((List.perm_insertionSort _ _).map _).nodup_iff.mpr (matches_nodup once)

/-- What the sweep's matches give to a watch. -/
def Db.takes (db : Db) (chain : ChainSpec) (cache : WatchCache) (logs : List Log) (w : Watch) :
    List MatchedTransfer :=
  w.take (db.share chain.chainId w.id (sweepMatches chain cache logs))

/-- The pending rows of a watch that are not canonical in the chunk. -/
def Db.strays (db : Db) (chain : ChainSpec) (logs : List Log) (toBlock : Nat) (id : Uuid) :
    List Transfer :=
  (leftovers db chain.chainId toBlock).filter fun t =>
    t.watchId = id ∧ (t.blockHash, t.logIndex) ∉ allCanonical logs

/-- What the events of a sweep are about: a watch that reaches its threshold
hears nothing about strays. -/
def Watch.report (w : Watch) (counted : List LogId) (amount : Nat)
    (strays : List Transfer) : List (EventType × Option LogId) :=
  counted.map (fun log => (.paymentConfirmed, some log)) ++
    if w.status = .active then
      if w.threshold ≤ w.confirmedAmount + amount then [(.thresholdReached, none)]
      else strays.map fun t => (.paymentOrphaned, some t.key)
    else []

/-- **A sweep, seen from a watch.** -/
theorem sweepTx_watch {w : Watch} (inv : Sound db) (events : EventLogs db)
    (once : (logs.map fun l => (l.blockHash, l.logIndex)).Nodup)
    (h : sweepTx db chain cache discovered toBlock logs = .ok tx)
    (hw : db.watches.get? w.id = some w) :
    ∃ news, news = w.report ((db.takes chain cache logs w).map (·.logId chain.chainId))
        (total MatchedTransfer.units (db.takes chain cache logs w))
        (db.strays chain logs toBlock w.id) ∧
      tx.db.tags w.id = db.tags w.id ++ news ∧
      tx.db.watches.get? w.id = some
        (w.gain (total MatchedTransfer.units (db.takes chain cache logs w)) news.length db.now) := by
  obtain ⟨mid, hcount, hresolve⟩ := sweepTx_phases h
  obtain ⟨w₁, got, turns⟩ := countAll_turns inv (nodup_sweepMatches once) hcount hw
  obtain ⟨cs, hcs, -, htr⟩ := countAll_trace hcount
  obtain ⟨htr', -, -⟩ := resolveAll_trace (lists_leftovers _ _ _) hresolve
  have htook := turns.took
  have hid : w₁.id = w.id := htook.same.id
  have hgot : db.takes chain cache logs w = got := turns.take
  have hw₁ : mid.db.watches.get? w₁.id = some w₁ := by
    rw [hid]
    exact turns.found
  obtain ⟨n, hn, htags⟩ := resolveAll_watch htr' hw₁
  rw [hid, turns.tags, List.append_assoc] at htags
  -- the strays of the rows after counting are those of the rows before
  have hstrays : w₁.orphanTags (canonicalOf chain cache logs)
      (leftovers mid.db chain.chainId toBlock) =
        if w₁.status = .active then (db.strays chain logs toBlock w.id).map
          fun t => (.paymentOrphaned, some t.key) else [] := by
    have hcanonical : ∀ m ∈ cs, (m.blockHash, m.logIndex) ∈ canonicalOf chain cache logs :=
      fun m hm => List.mem_append_left _ (List.mem_map_of_mem (hcs.mem hm))
    unfold Watch.orphanTags Db.strays
    rw [leftovers_counted htr hcanonical, hid]
    simp only [mem_canonicalOf]
  have hnews : got.map (·.tag chain.chainId) ++ w.closing w₁ ++ w₁.orphanTags
      (canonicalOf chain cache logs) (leftovers mid.db chain.chainId toBlock) =
        w.report (got.map (·.logId chain.chainId)) (total MatchedTransfer.units got)
          (db.strays chain logs toBlock w.id) := by
    have hstatus := htook.status
    rw [htook.amount] at hstatus
    rw [hstrays, Watch.report, Watch.closing, List.append_assoc, List.map_map]
    congr 1
    by_cases ha : w.status = .active
    · by_cases hr : w.threshold ≤ w.confirmedAmount + total MatchedTransfer.units got
      · simp [ha, hr, hstatus]
      · simp [ha, hr, hstatus]
    · simp [ha, hstatus]
  have hlog := (htr.append htr').invariant EventLogs (fun _ _ _ => EventLogs.step) events
  refine ⟨_, rfl, ?_, ?_⟩
  · rw [htags, hgot, ← hnews, List.append_assoc]
  · rw [hgot, ← hnews, ← hid, hn]
    refine congrArg some (htook.eq_gain (Trace.webhookUrl htr hw turns.found) ?_
      (Trace.completedAt htr hw turns.found))
    have hlen := (hlog.log _ _ hn).length
    change (tx.db.tags w₁.id).length = n at hlen
    rw [hid, htags, List.length_append, (events.log _ _ hw).length] at hlen
    rw [← hlen, List.append_assoc]

/-- The row of a log that the sweep does not count. -/
def Transfer.afterSweep (t : Transfer) (chainId toBlock : Nat) (canonical : List (B256 × Nat)) :
    Transfer :=
  if t.chainId = chainId ∧ t.status = .pending ∧ t.blockNumber ≤ toBlock then t.resolved canonical
  else t

/-- **A sweep, seen from the rows**: what is counted is confirmed, and what is
still pending in or below the chunk is resolved. -/
theorem sweepTx_rows (once : (logs.map fun l => (l.blockHash, l.logIndex)).Nodup)
    (h : sweepTx db chain cache discovered toBlock logs = .ok tx) :
    (∀ m ∈ tx.out.confirmed, tx.db.transfers.get? (m.logId chain.chainId) =
        some (m.confirmedRow chain.chainId (db.transfers.get? (m.logId chain.chainId)))) ∧
      ∀ log ∉ tx.out.confirmed.map (·.logId chain.chainId), tx.db.transfers.get? log =
        (db.transfers.get? log).map (·.afterSweep chain.chainId toBlock (allCanonical logs)) := by
  obtain ⟨mid, cs, hcs, hout, htr, htr'⟩ := sweepTx_trace h
  rw [hout]
  obtain ⟨hcounted, hkept⟩ := counted_rows htr
    ((nodup_sweepMatches once).sublist (hcs.map (·.logId chain.chainId)))
  have hlists := lists_leftovers mid chain.chainId toBlock
  obtain ⟨hresolved, hrest⟩ := resolved_rows htr' hlists
  -- a log whose row is not among the leftovers
  have hidle : ∀ log, (∀ t, mid.transfers.get? log = some t →
      t ∉ leftovers mid chain.chainId toBlock) → tx.db.transfers.get? log = mid.transfers.get? log := by
    intro log hlog
    refine hrest log fun hmem => ?_
    obtain ⟨t, ht, rfl⟩ := List.mem_map.mp hmem
    exact hlog t (hlists.found t ht) ht
  constructor
  · intro m hm
    rw [hidle, hcounted m hm]
    intro t ht hleft
    rw [hcounted m hm] at ht
    have hpending := (mem_leftovers.mp hleft).2.2.1
    rw [← Option.some.inj ht] at hpending
    exact absurd hpending (by simp [MatchedTransfer.confirmedRow, Transfer.withStatus])
  · intro log hlog
    rw [← hkept log hlog]
    cases hrow : mid.transfers.get? log with
    | none => rw [hidle log (by simp [hrow]), hrow, Option.map_none]
    | some t =>
        rw [Option.map_some, Transfer.afterSweep]
        by_cases hleft : t.chainId = chain.chainId ∧ t.status = .pending ∧ t.blockNumber ≤ toBlock
        · have hmem := mem_leftovers.mpr ⟨Table.mem_of_get? hrow, hleft⟩
          obtain rfl := Table.key_of_get? hrow
          rw [hresolved t hmem, if_pos hleft, Transfer.resolved, Transfer.resolved]
          simp only [mem_canonicalOf]
        · rw [hidle log, hrow, if_neg hleft]
          intro u hu hmem
          rw [hrow] at hu
          exact hleft (Option.some.inj hu ▸ (mem_leftovers.mp hmem).2)

end Sweep

/-! ## The specification -/

/-- The payments a sweep of the chain is to count toward a watch: of those to
its target from its start block on, in the order of the chain, as many as it
takes to reach its threshold. -/
def Watch.due (w : Watch) (chain : ChainSpec) (logs : List Log) (toBlock : Nat) : List Payment :=
  if w.chainId = chain.chainId ∧ w.status = .active then
    fill Payment.units w.threshold w.confirmedAmount (paymentsTo chain logs w w.startBlock toBlock)
  else []

/-- The entry of a watch in the cache. -/
def Watch.ref (w : Watch) : WatchRef := ⟨w.id, w.seq, w.startBlock⟩

/-- What is queued for a watch by a sweep of the chain. -/
def Db.news (db : Db) (chain : ChainSpec) (logs : List Log) (toBlock : Nat) (w : Watch) :
    List (EventType × Option LogId) :=
  w.report ((w.due chain logs toBlock).map (·.logId chain.chainId))
    (total Payment.units (w.due chain logs toBlock)) (db.strays chain logs toBlock w.id)

/-- What one sweep over the canonical logs of a chunk up to `toBlock` does. -/
structure ChunkSwept (db : Db) (chain : ChainSpec) (logs : List Log) (toBlock : Nat) (db' : Db) :
    Prop where
  /-- Every watch gains the payments due to it; no other field of it, and no
  other watch, changes. -/
  watches : ∀ id, db'.watches.get? id = (db.watches.get? id).map fun w =>
    w.gain (total Payment.units (w.due chain logs toBlock)) (db.news chain logs toBlock w).length db.now
  /-- The rows of the payments that are counted. -/
  counted : ∀ w ∈ db.watches.rows, ∀ p ∈ w.due chain logs toBlock,
    db'.transfers.get? (p.logId chain.chainId) =
      some ((p.toWatch w.ref false).confirmedRow chain.chainId
        (db.transfers.get? (p.logId chain.chainId)))
  /-- The rows of all other logs. -/
  kept : ∀ log, (∀ w ∈ db.watches.rows, ∀ p ∈ w.due chain logs toBlock, p.logId chain.chainId ≠ log) →
    db'.transfers.get? log =
      (db.transfers.get? log).map (·.afterSweep chain.chainId toBlock (allCanonical logs))
  pending : ∀ t ∈ db'.transfers.rows, t.chainId = chain.chainId → t.status = .pending →
    toBlock < t.blockNumber
  /-- No event is changed, and the new ones are about what was counted,
  completed and orphaned. -/
  outbox : db.outbox.rows <+: db'.outbox.rows
  events : ∀ id, db'.tags id = db.tags id ++
    ((db.watches.get? id).map (db.news chain logs toBlock)).getD []
  cursor : db'.CursorAt chain.chainId toBlock
  cursors : ∀ c, c ≠ chain.chainId → db'.cursors.get? c = db.cursors.get? c

section Chunk

variable {cache : WatchCache} {discovered : List WatchKey} {cursor toBlock : Nat} {logs : List Log}
  {w : Watch}

/-- **What a sweep takes for a watch is what is due to it**, if the rows of its
payments are missing or pending. -/
theorem takes_eq_due (inv : Sound db) (genuine : cache.Genuine db chain)
    (covers : cache.Covers db chain) (hw : db.watches.get? w.id = some w)
    (upTo : ∀ p ∈ paymentsOf chain logs, p.blockNumber ≤ toBlock)
    (fresh : ∀ p ∈ paymentsOf chain logs, db.Countable (p.logId chain.chainId)) :
    db.takes chain (deltaLoad db chain cache).1 logs w =
      (w.due chain logs toBlock).map fun p => p.toWatch w.ref false := by
  unfold Db.takes Watch.due
  by_cases active : w.status = .active
  · by_cases home : w.chainId = chain.chainId
    · rw [if_pos ⟨home, active⟩, share_eq_map
        (sweepMatches_of_watch inv genuine covers hw home active upTo), take_map active]
      congr 2
      refine List.filter_eq_self.mpr fun p hp => decide_eq_true (fresh p ?_)
      exact (mem_paymentsTo.mp hp).1
    · have hnone : db.share chain.chainId w.id
          (sweepMatches chain (deltaLoad db chain cache).1 logs) = [] := by
        refine List.filter_eq_nil_iff.mpr fun m hm hmw => ?_
        have habsent : (sweepMatches chain (deltaLoad db chain cache).1 logs).filter
            (fun m => m.watch.id = w.id) = [] :=
          sweepMatches_of_absent fun key ref hget hid =>
            home (genuine.deltaLoad.of_id hw hget hid).1
        exact List.filter_eq_nil_iff.mp habsent m hm (decide_eq_true (of_decide_eq_true hmw).1)
      rw [hnone, if_neg fun h => home h.1, Watch.take_of_active active]
      rfl
  · rw [Watch.take_of_inactive active, if_neg fun h => active h.2]
    rfl

/-- What a sweep counts toward a watch. -/
theorem confirmed_of_watch {tx : SweepTx} (inv : Sound db)
    (once : (logs.map fun l => (l.blockHash, l.logIndex)).Nodup)
    (h : sweepTx db chain cache discovered toBlock logs = .ok tx)
    (hw : db.watches.get? w.id = some w) :
    tx.out.confirmed.filter (fun m => m.watch.id = w.id) = db.takes chain cache logs w := by
  obtain ⟨mid, hcount, hresolve⟩ := sweepTx_phases h
  obtain ⟨w', -, -, hconfirmed⟩ := countAll_took inv (nodup_sweepMatches once) hcount hw
  obtain ⟨-, hconf, -⟩ := resolveAll_trace (lists_leftovers _ _ _) hresolve
  rw [hconf]
  exact hconfirmed

/-- A counted match is a payment that was due to its watch. -/
theorem mem_confirmed_iff {tx : SweepTx} {m : MatchedTransfer} (inv : Sound db)
    (once : (logs.map fun l => (l.blockHash, l.logIndex)).Nodup)
    (h : sweepTx db chain cache discovered toBlock logs = .ok tx)
    (hw : db.watches.get? w.id = some w) (hm : m.watch.id = w.id) :
    m ∈ tx.out.confirmed ↔ m ∈ db.takes chain cache logs w := by
  rw [← confirmed_of_watch inv once h hw, List.mem_filter]
  simp [hm]

/-- A match that is counted was due to the watch of its entry. -/
theorem due_of_confirmed {tx : SweepTx} {m : MatchedTransfer} (inv : Sound db)
    (genuine : cache.Genuine db chain) (covers : cache.Covers db chain)
    (once : (logs.map fun l => (l.blockHash, l.logIndex)).Nodup)
    (upTo : ∀ p ∈ paymentsOf chain logs, p.blockNumber ≤ toBlock)
    (fresh : ∀ p ∈ paymentsOf chain logs, db.Countable (p.logId chain.chainId))
    (h : sweepTx db chain (deltaLoad db chain cache).1 discovered toBlock logs = .ok tx)
    (hm : m ∈ tx.out.confirmed) :
    ∃ w ∈ db.watches.rows, ∃ p ∈ w.due chain logs toBlock, p.toWatch w.ref false = m := by
  obtain ⟨mid, cs, hcs, hout, -, -⟩ := sweepTx_trace h
  have hmatch := hcs.mem (hout ▸ hm)
  obtain ⟨p, -, ref, hget, -, hmp⟩ := mem_matchedOf.mp (mem_sweepMatches.mp hmatch)
  obtain ⟨w, hw, -, hentry⟩ := genuine.deltaLoad _ ref hget
  have hid : m.watch.id = w.id := by rw [hmp, slimEntry_ref hentry]; rfl
  have htake := (mem_confirmed_iff inv once h hw hid).mp hm
  rw [takes_eq_due inv genuine covers hw upTo fresh] at htake
  exact ⟨w, Table.mem_of_get? hw, List.mem_map.mp htake⟩

/-- **The view of one watch**, in terms of the payments due to it. -/
theorem sweepTx_watch_due {tx : SweepTx} (inv : Sound db) (logged : EventLogs db)
    (genuine : cache.Genuine db chain) (covers : cache.Covers db chain)
    (once : (logs.map fun l => (l.blockHash, l.logIndex)).Nodup)
    (upTo : ∀ p ∈ paymentsOf chain logs, p.blockNumber ≤ toBlock)
    (fresh : ∀ p ∈ paymentsOf chain logs, db.Countable (p.logId chain.chainId))
    (h : sweepTx db chain (deltaLoad db chain cache).1 discovered toBlock logs = .ok tx)
    (hw : db.watches.get? w.id = some w) :
    tx.db.tags w.id = db.tags w.id ++ db.news chain logs toBlock w ∧
      tx.db.watches.get? w.id = some (w.gain (total Payment.units (w.due chain logs toBlock))
        (db.news chain logs toBlock w).length db.now) := by
  obtain ⟨news, hnews, htags, hrow⟩ := sweepTx_watch inv logged once h hw
  have hdue := takes_eq_due inv genuine covers hw upTo fresh
  have heq : news = db.news chain logs toBlock w := by
    rw [hnews, hdue, total_map_toWatch, List.map_map]
    rfl
  rw [hdue, total_map_toWatch, heq] at hrow
  exact ⟨by rw [htags, heq], hrow⟩

/-- A sweep registers nothing. -/
theorem sweepTx_no_new_watch {tx : SweepTx} {id : Uuid}
    (h : sweepTx db chain cache discovered toBlock logs = .ok tx) (hnone : db.watches.get? id = none) :
    tx.db.watches.get? id = none := by
  obtain ⟨mid, cs, -, -, htr, htr'⟩ := sweepTx_trace h
  refine Trace.no_new_watch (htr.append htr') (fun a ha w => ?_) hnone
  rcases List.mem_append.mp ha with ha | ha
  · obtain ⟨m, -, rfl⟩ := List.mem_map.mp ha
    exact Act.noConfusion
  · obtain ⟨t, -, rfl⟩ := List.mem_map.mp ha
    exact resolveAct_ne_register _ t w

/-- Nothing is reported of a watch that there is not. -/
theorem tags_of_no_watch {id : Uuid} (logged : EventLogs db) (hnone : db.watches.get? id = none) :
    db.tags id = [] := by
  refine List.map_eq_nil_iff.mpr (List.filter_eq_nil_iff.mpr fun e he hid => ?_)
  obtain ⟨w, hw⟩ := logged.known e he
  rw [of_decide_eq_true hid, hnone] at hw
  contradiction

/-- **A sweep that commits meets the specification.** -/
theorem chunkSwept_of_ok {tx : SweepTx} {db' : Db} (inv : Sound db) (logged : EventLogs db)
    (genuine : cache.Genuine db chain) (covers : cache.Covers db chain)
    (once : (logs.map fun l => (l.blockHash, l.logIndex)).Nodup)
    (upTo : ∀ p ∈ paymentsOf chain logs, p.blockNumber ≤ toBlock)
    (fresh : ∀ p ∈ paymentsOf chain logs, db.Countable (p.logId chain.chainId))
    (hat : db.CursorAt chain.chainId cursor)
    (h : sweepTx db chain (deltaLoad db chain cache).1 discovered toBlock logs = .ok tx)
    (hflush : flushStats chain tx = .ok db') :
    ChunkSwept db chain logs toBlock (setCursor db' chain.chainId toBlock) := by
  obtain ⟨mid, cs, -, -, htr, htr'⟩ := sweepTx_trace h
  have htrace := htr.append htr'
  obtain ⟨hcounted, hkept⟩ := sweepTx_rows once h
  have hwatch := fun w hw =>
    sweepTx_watch_due (w := w) inv logged genuine covers once upTo fresh h hw
  have hcursor := Db.cursorAt_setCursor (sweepTx_cursorAt h hflush hat) toBlock
  obtain ⟨stats, hstats⟩ := flushStats_frame hflush
  refine ⟨fun id => ?_, fun w hw p hp => ?_, fun log hlog => ?_, fun t ht hchain hp => ?_, ?_,
    fun id => ?_, hcursor, fun c hc => ?_⟩
  · rw [hstats]
    change tx.db.watches.get? id = _
    cases hw : db.watches.get? id with
    | none => exact sweepTx_no_new_watch h hw
    | some w =>
        obtain rfl := Table.key_of_get? hw
        exact (hwatch w hw).2
  · rw [hstats]
    have hget := Table.get?_of_mem hw
    refine hcounted (p.toWatch w.ref false) ((mem_confirmed_iff inv once h hget rfl).mpr ?_)
    rw [takes_eq_due inv genuine covers hget upTo fresh]
    exact List.mem_map_of_mem hp
  · rw [hstats]
    refine hkept log fun hmem => ?_
    obtain ⟨m, hm, rfl⟩ := List.mem_map.mp hmem
    obtain ⟨w, hw, p, hp, rfl⟩ := due_of_confirmed inv genuine covers once upTo fresh h hm
    exact hlog w hw p hp rfl
  · rw [hstats] at ht
    exact sweepTx_resolved h (Table.get?_of_mem ht) hchain hp
  · rw [hstats]
    exact htrace.invariant (fun d => db.outbox.rows <+: d.outbox.rows)
      (fun _ _ _ hstep hd => hd.trans hstep.appends) (List.prefix_refl _)
  · rw [hstats]
    change tx.db.tags id = _
    cases hw : db.watches.get? id with
    | none =>
        have hlogged := htrace.invariant EventLogs (fun _ _ _ => EventLogs.step) logged
        rw [tags_of_no_watch hlogged (sweepTx_no_new_watch h hw), tags_of_no_watch logged hw]
        rfl
    | some w =>
        obtain rfl := Table.key_of_get? hw
        exact (hwatch w hw).1
  · rw [hstats]
    refine (Table.get?_replace_of_ne (a := (⟨chain.chainId, toBlock⟩ : Cursor)) (Ne.symm hc)).trans ?_
    exact congrArg (Table.get? · c) (sweepTx_cursors h)

/-- In a reachable state, the payments of the chunk have no settled rows. -/
theorem countable_above {height : Nat → B256 → Nat} {ops : List Op} {p : Payment}
    (planned : Planned ops) (ranged : ∀ op ∈ ops, op.Ranged height)
    (hat : (run exec Db.empty ops).CursorAt chain.chainId cursor)
    (hp : p.blockNumber = height chain.chainId p.blockHash) (above : cursor < p.blockNumber) :
    (run exec Db.empty ops).Countable (p.logId chain.chainId) := by
  obtain ⟨heights, settled⟩ := settled_run ops planned ranged
  intro t ht
  by_contra hs
  have hkey : t.key = p.logId chain.chainId := Table.key_of_get? ht
  have hchain : t.chainId = chain.chainId := congrArg LogId.chainId hkey
  have hhash : t.blockHash = p.blockHash := congrArg LogId.blockHash hkey
  obtain ⟨k, hk, hle⟩ := settled _ t ht hs
  rw [hchain] at hk
  rw [heights _ t ht, hchain, hhash, ← hp, ← hat.unique hk] at hle
  omega

/-- The payments of a chunk are in its blocks. -/
theorem paymentsOf_ranged {height : Nat → B256 → Nat} {p : Payment}
    (chunk : Op.Ranged height (.applySweep chain cache cursor toBlock logs))
    (hp : p ∈ paymentsOf chain logs) :
    (cursor < p.blockNumber ∧ p.blockNumber ≤ toBlock) ∧
      p.blockNumber = height chain.chainId p.blockHash := by
  obtain ⟨l, hl, -, hpay⟩ := mem_paymentsOf.mp hp
  obtain ⟨-, -, -, -, -, hnumber, hhash, -⟩ := payment?_spec hpay
  obtain ⟨hrange, hheight⟩ := chunk.2 l hl _ hnumber
  exact ⟨hrange, hheight _ hhash⟩

end Chunk

/-- **What one sweep of a chunk does.**  In every reachable state with the
cursor at `cursor`, with a cache that holds every active watch (or learns of it
by the delta load), the logs of `(cursor, toBlock]` and totals below `2 ^ 256`, a
sweep from the cursor commits and does what `ChunkSwept` says exactly if the
volumes on record have room for the payments that are due; and a sweep planned
from any other cursor changes nothing. -/
theorem sweep_chunk_iff (ops : List Op) (height : Nat → B256 → Nat) (planned : Planned ops)
    (ranged : ∀ op ∈ ops, op.Ranged height) (chain : ChainSpec) (cache : WatchCache)
    (cursor toBlock : Nat) (logs : List Log)
    (hat : (run exec Db.empty ops).CursorAt chain.chainId cursor)
    (genuine : cache.Genuine (run exec Db.empty ops) chain)
    (covers : cache.Covers (run exec Db.empty ops) chain)
    (chunk : Op.Ranged height (.applySweep chain cache cursor toBlock logs))
    (once : (logs.map fun l => (l.blockHash, l.logIndex)).Nodup)
    (room : ∀ w ∈ (run exec Db.empty ops).watches.rows,
      w.confirmedAmount + total Payment.units (w.due chain logs toBlock) < 2 ^ 256) :
    ((∃ out db', (applySweep (run exec Db.empty ops) chain cache cursor toBlock logs).2 =
        .ok (.applied out, db') ∧ ChunkSwept (run exec Db.empty ops) chain logs toBlock db') ↔
      (run exec Db.empty ops).VolumeFits chain.chainId
        fun w => total Payment.units (w.due chain logs toBlock)) ∧
      ∀ expected, expected ≠ cursor →
        applySweep (run exec Db.empty ops) chain cache expected toBlock logs =
          (cache, .ok (.cursorMoved expected cursor, run exec Db.empty ops)) := by
  have inv := healthy_run ops
  have capped := capped_run ops
  have fresh : ∀ p ∈ paymentsOf chain logs,
      (run exec Db.empty ops).Countable (p.logId chain.chainId) := fun p hp => by
    obtain ⟨⟨habove, -⟩, hheight⟩ := paymentsOf_ranged chunk hp
    exact countable_above planned ranged hat hheight habove
  have upTo : ∀ p ∈ paymentsOf chain logs, p.blockNumber ≤ toBlock :=
    fun p hp => (paymentsOf_ranged chunk hp).1.2
  generalize run exec Db.empty ops = db at *
  constructor
  · have hok : ∃ tx, sweepTx db chain (deltaLoad db chain cache).1 (deltaLoad db chain cache).2 toBlock
        logs = .ok tx := by
      rw [sweepTx_ok_iff_counts inv, countAll_ok_iff inv.sound inv.events (nodup_sweepMatches once)]
      intro w hw
      have htakes := takes_eq_due inv.sound genuine covers hw upTo fresh
      unfold Db.takes at htakes
      rw [SweepTx.reaches, htakes, total_map_toWatch]
      exact room w (Table.mem_of_get? hw)
    obtain ⟨tx, htx⟩ := hok
    have hflush := flush_sweepTx_ok_iff inv.sound capped (nodup_sweepMatches once) htx
    rw [volumeFits_congr (fun w => total Payment.units (w.due chain logs toBlock))
      fun w hw => ?_] at hflush
    · rw [← hflush]
      constructor
      · rintro ⟨out, db', happly, -⟩
        obtain ⟨tx', db₁, -, htx', hflush', -, -⟩ := applySweep_applied happly
        rw [htx] at htx'
        cases htx'
        exact ⟨db₁, hflush'⟩
      · rintro ⟨db₁, hflush'⟩
        rw [applySweep_of_ok hat htx hflush']
        exact ⟨_, _, rfl,
          chunkSwept_of_ok inv.sound inv.events genuine covers once upTo fresh hat htx hflush'⟩
    · have htakes := takes_eq_due inv.sound genuine covers (Table.get?_of_mem hw) upTo fresh
      unfold Db.takes at htakes
      rw [Db.gains, htakes, total_map_toWatch]
  · exact fun expected hne => applySweep_of_ne hat hne cache toBlock logs

/-- A watch for 100 units hears of a payment in a block 103 that will be
abandoned. -/
def strayAnnounced : List Op :=
  [.ensureCursor baseChain.chainId 100, .createWatch 1 watchOrder, .recordPending baseChain (heardOf 9)]

/-- The logs of the blocks 101 to 106: two payments. -/
def twoPayments : List Log := [transferLog 7 9 40 101 0, transferLog 7 9 30 104 0]

/-- Both payments are counted, and the one of the abandoned block is reported
as orphaned. -/
theorem sweep_chunk_stray :
    (∃ out db', (applySweep (run exec Db.empty strayAnnounced) baseChain .new 100 106 twoPayments).2 =
        .ok (.applied out, db') ∧
        ChunkSwept (run exec Db.empty strayAnnounced) baseChain twoPayments 106 db') ∧
      (run exec Db.empty strayAnnounced).watches.rows.map (fun w =>
        ((run exec Db.empty strayAnnounced).news baseChain twoPayments 106 w).map Prod.fst) =
          [[.paymentConfirmed, .paymentConfirmed, .paymentOrphaned]] := by
  have hranged : ∀ op ∈ strayAnnounced,
      op.Ranged fun _ hash => if hash = 9 then 103 else hash.toNat := by
    intro op hop
    simp only [strayAnnounced, List.mem_cons, List.not_mem_nil, or_false] at hop
    rcases hop with rfl | rfl | rfl
    · trivial
    · trivial
    · rfl
  have hplanned : Planned strayAnnounced := planned_of_no_backfill (by simp [strayAnnounced])
  have hseq : ∀ w ∈ (run exec Db.empty strayAnnounced).watches.rows, 0 < w.seq := by decide +kernel
  refine ⟨(sweep_chunk_iff strayAnnounced _ hplanned hranged baseChain .new 100 106 twoPayments
    (by decide +kernel) (fun key ref h => by contradiction)
    (fun w hw _ _ key ref _ => .inr (hseq w (Table.mem_of_get? hw))) ⟨by decide, fun l hl n hn => ?_⟩
    (by decide) (by decide +kernel)).1.mpr (by decide +kernel), by decide +kernel⟩
  simp only [twoPayments, List.mem_cons, List.not_mem_nil, or_false] at hl
  rcases hl with rfl | rfl
  · cases hn
    exact ⟨by decide, fun hash hh => by cases hh; decide⟩
  · cases hn
    exact ⟨by decide, fun hash hh => by cases hh; decide⟩

/-- Nine watches for as much as a `uint256` holds, of which the first `n` are
paid, each in a chunk of its own. -/
def paidInFull (n : Nat) : List Op :=
  .ensureCursor baseChain.chainId 100 ::
    ((List.range 9).map fun i => .createWatch i
      { watchOrder with
        paymentAddress := BitVec.ofNat 160 i
        threshold := BitVec.ofNat 256 (2 ^ 256 - 1) }) ++
    (List.range n).map fun i => .applySweep baseChain .new (100 + i) (101 + i)
      [transferLog 7 (BitVec.ofNat 160 i) (2 ^ 256 - 1) (101 + i) 0]

/-- **The volume of a token fills up.**  Every total stays below `2 ^ 256`, but
with eight watches paid in full the ninth chunk takes `confirmed_volume` past
its 78 digits: the sweep fails and nothing changes. -/
theorem sweep_chunk_full_volume :
    (run exec Db.empty (paidInFull 8)).CursorAt baseChain.chainId 108 ∧
      WatchCache.new.Covers (run exec Db.empty (paidInFull 8)) baseChain ∧
      (∀ w ∈ (run exec Db.empty (paidInFull 8)).watches.rows, w.confirmedAmount +
        total Payment.units (w.due baseChain [transferLog 7 8 (2 ^ 256 - 1) 109 0] 109) < 2 ^ 256) ∧
      execError (run exec Db.empty (paidInFull 8))
          (.applySweep baseChain .new 108 109 [transferLog 7 8 (2 ^ 256 - 1) 109 0]) =
        some (.db .numericOverflow) ∧
      exec (run exec Db.empty (paidInFull 8))
          (.applySweep baseChain .new 108 109 [transferLog 7 8 (2 ^ 256 - 1) 109 0]) =
        run exec Db.empty (paidInFull 8) := by
  have hseq : ∀ w ∈ (run exec Db.empty (paidInFull 8)).watches.rows, 0 < w.seq := by decide +kernel
  have herror : execError (run exec Db.empty (paidInFull 8))
      (.applySweep baseChain .new 108 109 [transferLog 7 8 (2 ^ 256 - 1) 109 0]) =
        some (.db .numericOverflow) := by
    decide +kernel
  refine ⟨by decide +kernel, fun w hw _ _ key ref _ => .inr (hseq w (Table.mem_of_get? hw)),
    by decide +kernel, herror, ?_⟩
  unfold exec
  exact committed_of_failure herror

end GumIndexer
