import GumIndexer.Base.Text

/-!
# GumIndexer.Sign

Webhook signatures: `t=<unix seconds>,v1=<hex of the MAC>`, where the MAC is
over the timestamp in decimal, a dot and the body.

`signatureHeader` and `verify` are the two ends.  The header is read part by
part, and a later part of the same name replaces an earlier one, also if it
cannot be read (`verify_fields`).  HMAC-SHA256 is a parameter.

The age of a message is computed in `i64`.  That can overflow, which panics or
wraps around, depending on how the crate is built: `verify_exact_iff` says for
which timestamps it does not.
-/

namespace GumIndexer.Sign

open Base

/-! ## Signing and verifying -/

/-- What an overflow does: a panic with debug assertions, and a wrap around
without them. -/
inductive Build
  | debug
  | release
deriving DecidableEq, Repr

/-- `(now - timestamp).abs()`; `none` is a panic. -/
def age (build : Build) (now timestamp : Int64) : Option Int64 :=
  let d := now - timestamp
  match build with
  | .release => some (if d < 0 then -d else d)
  | .debug =>
      if d.toInt = now.toInt - timestamp.toInt ∧ d ≠ Int64.minValue then
        some (if d < 0 then -d else d)
      else none

section Mac

variable (hmac : Bytes → Bytes → Bytes)

/-- What the MAC is computed over. -/
def macInput (timestamp : Int64) (body : Bytes) : Bytes :=
  decimalBytes timestamp ++ UInt8.ofNat 46 :: body

/-- `mac`. -/
def mac (secret : Bytes) (timestamp : Int64) (body : Bytes) : Bytes :=
  hmac secret (macInput timestamp body)

/-- `signature_header`. -/
def signatureHeader (secret : Bytes) (timestamp : Int64) (body : Bytes) : Str :=
  't' :: '=' :: decimal timestamp ++ ',' :: 'v' :: '1' :: '=' :: hexEncode (mac hmac secret timestamp body)

/-- What `verify` has read of the header. -/
structure Fields where
  timestamp : Option Int64 := none
  digest : Option Bytes := none
deriving DecidableEq

/-- One turn of the loop of `verify`. -/
def Fields.read (fields : Fields) (part : Str) : Fields :=
  match splitOnce '=' (trim part) with
  | some (['t'], v) => { fields with timestamp := parseI64 v }
  | some (['v', '1'], v) => { fields with digest := hexDecode v }
  | _ => fields

/-- `verify`; `none` is a panic. -/
def verify (build : Build) (secret : Bytes) (header : Str) (body : Bytes) (now tolerance : Int64) :
    Option Bool :=
  let fields := (header.splitOn ',').foldl Fields.read {}
  match fields.timestamp, fields.digest with
  | some timestamp, some digest => do
      let age ← age build now timestamp
      return if tolerance < age then false else mac hmac secret timestamp body = digest
  | _, _ => some false

end Mac

/-! ## What is read of a header -/

/-- The values of the parts of a header that have this name. -/
def values (name : Str) (parts : List Str) : List Str :=
  parts.filterMap fun part =>
    match splitOnce '=' (trim part) with
    | some (key, v) => if key = name then some v else none
    | none => none

theorem values_append (name : Str) (parts : List Str) (part : Str) :
    values name (parts ++ [part]) = values name parts ++ values name [part] :=
  List.filterMap_append

/-- The last timestamp of a header, if it can be read. -/
def timestampOf (header : Str) : Option Int64 :=
  (values ['t'] (header.splitOn ',')).getLast?.bind parseI64

/-- The last digest of a header, if it can be read. -/
def digestOf (header : Str) : Option Bytes :=
  (values ['v', '1'] (header.splitOn ',')).getLast?.bind hexDecode

theorem Fields.foldl_read (parts : List Str) :
    parts.foldl Fields.read {} =
      ⟨(values ['t'] parts).getLast?.bind parseI64, (values ['v', '1'] parts).getLast?.bind hexDecode⟩ := by
  induction parts using List.reverseRecOn with
  | nil => rfl
  | append_singleton parts part ih =>
      rw [List.foldl_append, ih, values_append, values_append, List.foldl_cons, List.foldl_nil]
      unfold Fields.read
      split
      · next v h => simp [values, h]
      · next v h => simp [values, h]
      · next ht hv1 =>
          -- a part of another name, or of none
          have hnone : ∀ name : Str, name = ['t'] ∨ name = ['v', '1'] → values name [part] = [] := by
            intro name hname
            simp only [values, List.filterMap_cons, List.filterMap_nil]
            cases hs : splitOnce '=' (trim part) with
            | none => rfl
            | some kv =>
                obtain ⟨key, v⟩ := kv
                have hkey : key ≠ name := by
                  rintro rfl
                  rcases hname with rfl | rfl
                  · exact ht v hs
                  · exact hv1 v hs
                simp [hkey]
          rw [hnone _ (.inl rfl), hnone _ (.inr rfl), List.append_nil, List.append_nil]

/-! ## The age of a message -/

theorem toInt_sub_of_lt {now t : Int64} (h : (now.toInt - t.toInt).natAbs < 2 ^ 63) :
    (now - t).toInt = now.toInt - t.toInt := by
  rw [Int64.toInt_sub, Int.bmod_eq_of_le (by omega) (by omega)]

theorem lt_zero_iff (d : Int64) : d < 0 ↔ d.toInt < 0 := by
  rw [Int64.lt_iff_toInt_lt]
  rfl

/-- A difference that fits is measured exactly. -/
theorem age_of_lt (build : Build) {now t : Int64} (h : (now.toInt - t.toInt).natAbs < 2 ^ 63) :
    ∃ a, age build now t = some a ∧ a.toInt = (now.toInt - t.toInt).natAbs := by
  have hd := toInt_sub_of_lt h
  have habs : (if now - t < 0 then -(now - t) else now - t).toInt = (now.toInt - t.toInt).natAbs := by
    split
    · next hneg =>
        rw [lt_zero_iff, hd] at hneg
        rw [Int64.toInt_neg, hd, Int.bmod_eq_of_le (by omega) (by omega)]
        omega
    · next hneg =>
        rw [lt_zero_iff, hd] at hneg
        rw [hd]
        omega
  have hmin : now - t ≠ Int64.minValue := by
    intro hmin
    rw [hmin, Int64.toInt_minValue] at hd
    omega
  cases build with
  | release => exact ⟨_, rfl, habs⟩
  | debug => exact ⟨_, if_pos ⟨hd, hmin⟩, habs⟩

/-- Any other difference panics in a debug build. -/
theorem age_debug_of_le {now t : Int64} (h : 2 ^ 63 ≤ (now.toInt - t.toInt).natAbs) :
    age .debug now t = none := by
  refine if_neg fun ⟨hd, hmin⟩ => hmin ?_
  have hlow := Int64.le_toInt (now - t)
  have hhigh := Int64.toInt_lt (now - t)
  rw [← Int64.toInt_inj, Int64.toInt_minValue]
  omega

/-! ## Verification -/

section Verify

variable (hmac : Bytes → Bytes → Bytes) {build : Build} {secret body : Bytes} {header : Str}
  {now tolerance : Int64}

/-- The message is signed and in the window. -/
def Accepted (secret : Bytes) (header : Str) (body : Bytes) (now tolerance : Int64) : Prop :=
  ∃ t d, timestampOf header = some t ∧ digestOf header = some d ∧
    ((now.toInt - t.toInt).natAbs : Int) ≤ tolerance.toInt ∧ d = mac hmac secret t body

theorem verify_fields : verify hmac build secret header body now tolerance =
    match timestampOf header, digestOf header with
    | some t, some d =>
        (age build now t).map fun a => if tolerance < a then false else decide (mac hmac secret t body = d)
    | _, _ => some false := by
  unfold verify timestampOf digestOf
  rw [Fields.foldl_read]
  generalize (values ['t'] (header.splitOn ',')).getLast?.bind parseI64 = t
  generalize (values ['v', '1'] (header.splitOn ',')).getLast?.bind hexDecode = d
  cases t with
  | none => rfl
  | some t =>
      cases d with
      | none => rfl
      | some d =>
          simp only
          cases age build now t <;> rfl

variable {hmac}

theorem verify_of_age {t a : Int64} {d : Bytes} (ht : timestampOf header = some t)
    (hd : digestOf header = some d) (ha : age build now t = some a)
    (habs : a.toInt = (now.toInt - t.toInt).natAbs) :
    ∃ b, verify hmac build secret header body now tolerance = some b ∧
      (b = true ↔ Accepted hmac secret header body now tolerance) := by
  rw [verify_fields, ht, hd]
  simp only [ha, Option.map_some]
  refine ⟨_, rfl, ?_⟩
  have hwindow : tolerance < a ↔ ¬ ((now.toInt - t.toInt).natAbs : Int) ≤ tolerance.toInt := by
    rw [Int64.lt_iff_toInt_lt, habs, not_le]
  constructor
  · intro h
    split at h
    · contradiction
    · next hnot =>
        exact ⟨t, d, ht, hd, by rw [hwindow, not_not] at hnot; exact hnot, (of_decide_eq_true h).symm⟩
  · rintro ⟨t', d', ht', hd', hle, hmac'⟩
    obtain rfl : t = t' := Option.some.inj (ht.symm.trans ht')
    obtain rfl : d = d' := Option.some.inj (hd.symm.trans hd')
    rw [if_neg (by rw [hwindow, not_not]; exact hle)]
    exact decide_eq_true hmac'.symm

end Verify

/-! ## Signed headers -/

/-- **What is signed is read back.** -/
theorem fields_signatureHeader (hmac : Bytes → Bytes → Bytes) (secret : Bytes) (t : Int64) (body : Bytes) :
    timestampOf (signatureHeader hmac secret t body) = some t ∧
      digestOf (signatureHeader hmac secret t body) = some (mac hmac secret t body) := by
  have hkey : ∀ c ∈ ['t'], Plain c := List.forall_mem_singleton.mpr (by decide)
  have hkey' : ∀ c ∈ ['v', '1'], Plain c :=
    List.forall_mem_cons.mpr ⟨by decide, List.forall_mem_singleton.mpr (by decide)⟩
  have hsplit : (signatureHeader hmac secret t body).splitOn ',' =
      [['t'] ++ '=' :: decimal t, ['v', '1'] ++ '=' :: hexEncode (mac hmac secret t body)] := by
    have hcomma : ∀ {key v : Str}, (∀ c ∈ key, Plain c) → (∀ c ∈ v, Plain c) →
        ∀ c ∈ key ++ '=' :: v, (c == ',') = false := by
      intro key v hkey hv c hc
      rw [beq_eq_false_iff_ne]
      rcases List.mem_append.mp hc with hc | hc
      · exact (hkey c hc).1
      · rcases List.mem_cons.mp hc with rfl | hc
        · decide
        · exact (hv c hc).1
    change List.splitOnP (· == ',') ((['t'] ++ '=' :: decimal t) ++
      ',' :: (['v', '1'] ++ '=' :: hexEncode (mac hmac secret t body))) = _
    rw [List.splitOnP_append_cons_of_forall_mem (hcomma hkey fun _ => plain_of_mem_decimal) ','
      (by decide), List.splitOnP_eq_singleton (hcomma hkey' fun _ => plain_of_mem_hexEncode)]
  have ht := splitOnce_part ['t'] hkey fun c (hc : c ∈ decimal t) => plain_of_mem_decimal hc
  have hv := splitOnce_part ['v', '1'] hkey'
    fun c (hc : c ∈ hexEncode (mac hmac secret t body)) => plain_of_mem_hexEncode hc
  unfold timestampOf digestOf
  rw [hsplit]
  simp only [values, List.filterMap_cons, List.filterMap_nil, ht, hv]
  exact ⟨parseI64_decimal t, hexDecode_hexEncode _⟩

/-- **Different messages have different MAC inputs.** -/
theorem macInput_injective {t t' : Int64} {body body' : Bytes} (h : macInput t body = macInput t' body') :
    t = t' ∧ body = body' := by
  -- the first dot ends the timestamp
  have hcut : ∀ (t : Int64) (body : Bytes), (macInput t body).splitOnP (· == UInt8.ofNat 46) =
      decimalBytes t :: body.splitOnP (· == UInt8.ofNat 46) := by
    intro t body
    refine List.splitOnP_append_cons_of_forall_mem (fun b hb => ?_) _ (by decide) body
    rw [beq_eq_false_iff_ne]
    rintro rfl
    exact dot_not_mem_decimalBytes t hb
  have hsplit := hcut t body
  rw [h, hcut t' body'] at hsplit
  obtain rfl := decimalBytes_injective (List.cons.inj hsplit).1.symm
  exact ⟨rfl, (List.cons.inj (List.append_cancel_left h)).2⟩

/-! ## The result -/

/-- **Verification accepts exactly the signed messages in the window**, if the
difference to the timestamp of the header, read together with a digest, fits
into an `i64`.  What `signature_header` returns is accepted as long as it is in
the window, and different messages have different MAC inputs. -/
theorem verify_exact_iff (hmac : Bytes → Bytes → Bytes) (secret : Bytes) (body : Bytes)
    (now tolerance : Int64) :
    (∀ header, (∀ build, ∃ b, verify hmac build secret header body now tolerance = some b ∧
        (b = true ↔ Accepted hmac secret header body now tolerance)) ↔
      ∀ t d, timestampOf header = some t → digestOf header = some d →
        (now.toInt - t.toInt).natAbs < 2 ^ 63) ∧
      (∀ build t, ((now.toInt - t.toInt).natAbs : Int) ≤ tolerance.toInt →
        verify hmac build secret (signatureHeader hmac secret t body) body now tolerance = some true) ∧
      ∀ t t' body', (t, body) ≠ (t', body') → macInput t body ≠ macInput t' body' := by
  refine ⟨fun header => ⟨fun h t d ht hd => ?_, fun h build => ?_⟩, fun build t hle => ?_, ?_⟩
  · by_contra hlarge
    obtain ⟨b, hb, -⟩ := h .debug
    rw [verify_fields, ht, hd] at hb
    simp only [age_debug_of_le (not_lt.mp hlarge), Option.map_none] at hb
    contradiction
  · cases ht : timestampOf header with
    | none =>
        refine ⟨false, by rw [verify_fields, ht], iff_of_false (by decide) ?_⟩
        rintro ⟨t, d, ht', -⟩
        rw [ht] at ht'
        contradiction
    | some t =>
        cases hd : digestOf header with
        | none =>
            refine ⟨false, by rw [verify_fields, ht, hd], iff_of_false (by decide) ?_⟩
            rintro ⟨t, d, -, hd', -⟩
            rw [hd] at hd'
            contradiction
        | some d =>
            obtain ⟨a, ha, habs⟩ := age_of_lt build (h t d ht hd)
            exact verify_of_age ht hd ha habs
  · obtain ⟨ht, hd⟩ := fields_signatureHeader hmac secret t body
    have hfits : (now.toInt - t.toInt).natAbs < 2 ^ 63 := by
      have htol := tolerance.toInt_lt
      omega
    obtain ⟨a, ha, habs⟩ := age_of_lt build hfits
    obtain ⟨b, hb, hiff⟩ := verify_of_age ht hd ha habs
    rw [hb, hiff.mpr ⟨t, _, ht, hd, hle, rfl⟩]
  · intro t t' body' hne heq
    obtain ⟨rfl, rfl⟩ := macInput_injective heq
    exact hne rfl

/-- A timestamp of `i64::MIN` is `2 ^ 64 - 1` seconds from `i64::MAX`.  Built
with debug assertions, `verify` panics; without them, it takes the message for
one second old. -/
theorem verify_overflows :
    verify (fun _ m => m) .debug [] (signatureHeader (fun _ m => m) [] Int64.minValue []) []
        Int64.maxValue 300 = none ∧
      verify (fun _ m => m) .release [] (signatureHeader (fun _ m => m) [] Int64.minValue []) []
        Int64.maxValue 300 = some true ∧
      ¬ Accepted (fun _ m => m) [] (signatureHeader (fun _ m => m) [] Int64.minValue []) []
        Int64.maxValue 300 := by
  refine ⟨by decide +kernel, by decide +kernel, ?_⟩
  rintro ⟨t, d, ht, -, hle, -⟩
  rw [(fields_signatureHeader _ _ _ _).1] at ht
  obtain rfl := Option.some.inj ht
  exact absurd hle (by decide)

end GumIndexer.Sign
