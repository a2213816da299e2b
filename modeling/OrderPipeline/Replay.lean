import OrderPipeline.PayloadText
import OrderPipeline.ReadDlq

/-!
# Replaying a dead letter

A record of the dead letter topic is meant to carry what a replay needs: the
key, the order and the coordinates of the failed message.  `replay` reads them
back from the bytes.

It recovers all of them but for the empty key: `publish` encodes a key only if
it is truthy, so the empty key becomes a null key (`replay_record`).
`record_determines_origin_iff` says which pairs of messages are confused.
-/

namespace OrderPipeline

open JsonText PyStr

/-- What a replay of a message needs to know. -/
@[ext]
structure Origin where
  key : Option String
  order : AvroOrder
  topic : String
  partition : ℤ
  offset : ℤ
  deriving DecidableEq

/-- A message that `publish` is called for, with a decoded order whose price is
finite. -/
structure FailedMessage where
  origin : Origin
  error : Option Exn
  retryCount : ℤ
  finitePrice : ∃ q, origin.order.price = .finite q ∧ PyFloat.IsBinary32 q

/-- The call of `publish`. -/
def FailedMessage.record (x : FailedMessage) (dlqTopic failedAt : String) :
    Except Exn DlqRecord :=
  buildRecord dlqTopic (some (dictToOrder x.origin.order)) x.origin.key x.origin.topic
    x.origin.partition x.origin.offset x.error x.retryCount failedAt

/-- The origin with the empty key taken for no key. -/
def Origin.withoutEmptyKey (o : Origin) : Origin :=
  { o with key := o.key.filter fun key => key ≠ "" }

/-- Two messages that differ in the empty key and the missing key only. -/
structure EmptyKeyClash (x y : FailedMessage) : Prop where
  keys : x.origin.key = none ∧ y.origin.key = some "" ∨
    x.origin.key = some "" ∧ y.origin.key = none
  rest : x.origin.order = y.origin.order ∧ x.origin.topic = y.origin.topic ∧
    x.origin.partition = y.origin.partition ∧ x.origin.offset = y.origin.offset
  errorClass : errorClassName x.error = errorClassName y.error
  errorText : (errorText x.error).take 1000 = (errorText y.error).take 1000
  retryCount : x.retryCount = y.retryCount

/-! ## Reading a record back -/

/-- The text of a Python string without surrogates. -/
def textOf? (s : PyStr) : Option String := (s.mapM toChar?).map String.ofList

/-- The text in a member of an object. -/
def stringMember? (members : List (PyStr × Value)) (name : String) : Option String :=
  match members.lookup (ofString name) with
  | some (.str s) => textOf? s
  | _ => none

/-- The number in a member of an object, read as a float. -/
def floatMember? (members : List (PyStr × Value)) (name : String) : Option PyFloat :=
  match members.lookup (ofString name) with
  | some (.num d) => some (PyFloat.ofDecimal d)
  | _ => none

/-- The order in a payload. -/
def replayOrder (payload : Bytes) : Option AvroOrder :=
  match (textOf? (decodeReplace payload)).bind fun text => read text.toList with
  | some (.obj members) => do
    let orderId ← stringMember? members "orderId"
    let product ← stringMember? members "product"
    let price ← floatMember? members "price"
    some ⟨orderId, product, price⟩
  | _ => none

/-- The key of a record. -/
def replayKey : Option Bytes → Option (Option String)
  | none => some none
  | some bytes => (textOf? (decodeReplace bytes)).map some

/-- The message that a record stands for. -/
def replay (r : DlqRecord) : Option Origin := do
  let headers := decodeHeaders (received r.headers)
  let key ← replayKey r.key
  let order ← replayOrder r.value
  let topic ← (headers.lookup hdrOriginalTopic).bind textOf?
  let partition ← (headers.lookup hdrOriginalPartition).bind intOf?
  let offset ← (headers.lookup hdrOriginalOffset).bind intOf?
  some ⟨key, order, topic, partition, offset⟩

@[simp] theorem textOf?_ofString (s : String) : textOf? (ofString s) = some s := by
  unfold textOf? ofString
  rw [mapM_toChar?_ofChar, Option.map_some, String.ofList_toList]

/-- Every key but the empty one is read back. -/
theorem replayKey_encodeKey (key : Option String) :
    replayKey (encodeKey key) = some (key.filter fun key => key ≠ "") := by
  cases key with
  | none => rfl
  | some key =>
      by_cases hempty : key = ""
      · subst hempty
        rfl
      · simp [encodeKey, hempty, replayKey, decodeReplace_encodeString, Option.filter]

/-- A decoded order with a finite price is read back: the three members come out with
their texts, and the decimal rounds to the price. -/
theorem replayOrder_orderText {o : AvroOrder} {q : ℚ} (hprice : o.price = .finite q)
    (hq : PyFloat.IsBinary32 q) :
    replayOrder ((orderText o).flatMap String.utf8EncodeChar) = some o := by
  obtain ⟨d, hd, htext⟩ := orderText_text hprice hq
  have hbytes : decodeReplace ((orderText o).flatMap String.utf8EncodeChar) =
      ofString (String.ofList (orderText o)) := by
    rw [decodeReplace_flatMap, ofString, String.toList_ofList]
  have hread : read (String.ofList (orderText o)).toList = some (orderValue o d) := by
    rw [String.toList_ofList]
    exact read_of_text htext
  unfold replayOrder
  rw [hbytes, textOf?_ofString, Option.bind_some, hread]
  simp only [orderValue]
  generalize hmembers : [(ofString "orderId", Value.str (ofString o.orderId)),
    (ofString "product", .str (ofString o.product)), (ofString "price", .num d)] = members
  have horderId : stringMember? members "orderId" = some o.orderId := by
    rw [← hmembers]
    exact textOf?_ofString o.orderId
  have hproduct : stringMember? members "product" = some o.product := by
    rw [← hmembers]
    exact textOf?_ofString o.product
  have hfloat : floatMember? members "price" = some o.price := by
    rw [← hmembers, ← hd]
    rfl
  rw [horderId, hproduct, hfloat]
  rfl

/-! ## What a record determines -/

/-- A record without its time stamp. -/
theorem record_withoutFailedAt {x : FailedMessage} {dlqTopic failedAt : String}
    {r : DlqRecord} (h : x.record dlqTopic failedAt = .ok r) :
    ∃ cls text, PyStr.encode (errorClassName x.error) = some cls ∧
      PyStr.encode ((errorText x.error).take 1000) = some text ∧
      r.withoutFailedAt = ⟨dlqTopic, encodeKey x.origin.key,
        (orderText x.origin.order).flatMap String.utf8EncodeChar,
        [(hdrOriginalTopic, PyStr.encodeString x.origin.topic),
          (hdrOriginalPartition, PyStr.encodeString (toString x.origin.partition)),
          (hdrOriginalOffset, PyStr.encodeString (toString x.origin.offset)),
          (hdrErrorClass, cls),
          (hdrErrorMessage, text),
          (hdrRetryCount, PyStr.encodeString (toString x.retryCount))]⟩ := by
  obtain ⟨headers, value, hheaders, hvalue, rfl⟩ := buildRecord_ok_iff.mp h
  obtain ⟨cls, text, hcls, htext, rfl⟩ := buildHeaders_ok_iff.mp hheaders
  have hpayload : buildPayload (some (dictToOrder x.origin.order).toPy) = .ok value := hvalue
  rw [buildPayload_orderText] at hpayload
  rw [← Except.ok.inj hpayload]
  exact ⟨cls, text, hcls, htext, rfl⟩

/-- **What a replay recovers**: the origin, but for an empty key, which is published as
no key at all. -/
theorem replay_record {x : FailedMessage} {dlqTopic failedAt : String} {r : DlqRecord}
    (h : x.record dlqTopic failedAt = .ok r) :
    replay r.withoutFailedAt = some x.origin.withoutEmptyKey := by
  obtain ⟨cls, text, -, -, hrecord⟩ := record_withoutFailedAt h
  obtain ⟨q, hprice, hq⟩ := x.finitePrice
  have hnodup : [hdrOriginalTopic, hdrOriginalPartition, hdrOriginalOffset, hdrErrorClass,
      hdrErrorMessage, hdrRetryCount].Nodup := by
    decide
  rw [hrecord]
  unfold replay
  rw [replayKey_encodeKey, replayOrder_orderText hprice hq,
    decodeHeaders_received (by exact hnodup)]
  simp only [List.map_cons, List.map_nil, decodeReplace_encodeString]
  generalize hheaders : [(hdrOriginalTopic, ofString x.origin.topic),
    (hdrOriginalPartition, ofString (toString x.origin.partition)),
    (hdrOriginalOffset, ofString (toString x.origin.offset)), (hdrErrorClass, decodeReplace cls),
    (hdrErrorMessage, decodeReplace text),
    (hdrRetryCount, ofString (toString x.retryCount))] = headers
  have htopic : (headers.lookup hdrOriginalTopic).bind textOf? = some x.origin.topic := by
    rw [← hheaders]
    exact textOf?_ofString x.origin.topic
  have hpartition : (headers.lookup hdrOriginalPartition).bind intOf? =
      some x.origin.partition := by
    rw [← hheaders]
    exact intOf?_toString x.origin.partition
  have hoffset : (headers.lookup hdrOriginalOffset).bind intOf? = some x.origin.offset := by
    rw [← hheaders]
    exact intOf?_toString x.origin.offset
  rw [htopic, hpartition, hoffset]
  rfl

/-- A replay recovers the whole origin exactly when the key is not empty. -/
theorem replay_recovers_iff {x : FailedMessage} {dlqTopic failedAt : String} {r : DlqRecord}
    (h : x.record dlqTopic failedAt = .ok r) :
    replay r.withoutFailedAt = some x.origin ↔ x.origin.key ≠ some "" := by
  rw [replay_record h, Option.some.injEq]
  constructor
  · intro hsame hempty
    have hkey := congrArg Origin.key hsame
    simp [Origin.withoutEmptyKey, hempty, Option.filter] at hkey
  · intro hkey
    refine Origin.ext ?_ rfl rfl rfl rfl
    show (x.origin.key.filter fun key => key ≠ "") = x.origin.key
    cases hx : x.origin.key with
    | none => rfl
    | some key =>
        have hne : key ≠ "" := by
          intro hempty
          exact hkey (hx.trans (congrArg some hempty))
        simp [Option.filter, hne]

/-- The rest of a record determines the error and the effort: class name, the first
characters of the text, and the attempts are each a header. -/
theorem record_error_determined {x y : FailedMessage} {dlqTopic failedAt failedAt' : String}
    {r r' : DlqRecord} (hr : x.record dlqTopic failedAt = .ok r)
    (hr' : y.record dlqTopic failedAt' = .ok r')
    (hsame : r.withoutFailedAt = r'.withoutFailedAt) :
    errorClassName x.error = errorClassName y.error ∧
      (errorText x.error).take 1000 = (errorText y.error).take 1000 ∧
      x.retryCount = y.retryCount := by
  obtain ⟨cls, text, hcls, htext, hrecord⟩ := record_withoutFailedAt hr
  obtain ⟨cls', text', hcls', htext', hrecord'⟩ := record_withoutFailedAt hr'
  rw [hrecord, hrecord'] at hsame
  have hheaders := congrArg DlqRecord.headers hsame
  simp only [List.cons.injEq, Prod.mk.injEq, true_and, and_true] at hheaders
  obtain ⟨-, -, -, rfl, rfl, hcount⟩ := hheaders
  refine ⟨?_, ?_, ?_⟩
  · rw [← decodeReplace_encode hcls, decodeReplace_encode hcls']
  · rw [← decodeReplace_encode htext, decodeReplace_encode htext']
  · have hdecoded := congrArg decodeReplace hcount
    rw [decodeReplace_encodeString, decodeReplace_encodeString] at hdecoded
    have hread := congrArg intOf? hdecoded
    rw [intOf?_toString, intOf?_toString] at hread
    exact Option.some.inj hread

/-- Messages that clash in the empty key have the same record. -/
theorem EmptyKeyClash.same_record {x y : FailedMessage} (h : EmptyKeyClash x y)
    {dlqTopic failedAt failedAt' : String} {r r' : DlqRecord}
    (hr : x.record dlqTopic failedAt = .ok r) (hr' : y.record dlqTopic failedAt' = .ok r') :
    r.withoutFailedAt = r'.withoutFailedAt := by
  obtain ⟨cls, text, hcls, htext, hrecord⟩ := record_withoutFailedAt hr
  obtain ⟨cls', text', hcls', htext', hrecord'⟩ := record_withoutFailedAt hr'
  obtain ⟨horder, htopic, hpartition, hoffset⟩ := h.rest
  have hkey : encodeKey x.origin.key = encodeKey y.origin.key := by
    rcases h.keys with ⟨hx, hy⟩ | ⟨hx, hy⟩ <;> rw [hx, hy] <;> rfl
  rw [h.errorClass, hcls'] at hcls
  rw [h.errorText, htext'] at htext
  rw [hrecord, hrecord', hkey, horder, htopic, hpartition, hoffset, h.retryCount,
    Option.some.inj hcls, Option.some.inj htext]

/-- Keys that agree up to the empty key are the same, or the empty and the
missing one. -/
theorem keys_of_filter_eq {key key' : Option String}
    (h : (key.filter fun key => key ≠ "") = key'.filter fun key => key ≠ "") :
    key = key' ∨ key = none ∧ key' = some "" ∨ key = some "" ∧ key' = none := by
  cases key with
  | none =>
      cases key' with
      | none => exact Or.inl rfl
      | some key' =>
          by_cases hempty : key' = ""
          · exact Or.inr (Or.inl ⟨rfl, by rw [hempty]⟩)
          · simp [Option.filter, hempty] at h
  | some key =>
      cases key' with
      | none =>
          by_cases hempty : key = ""
          · exact Or.inr (Or.inr ⟨by rw [hempty], rfl⟩)
          · simp [Option.filter, hempty] at h
      | some key' =>
          by_cases hempty : key = "" <;> by_cases hempty' : key' = "" <;> grind

/-- **When a record determines its origin.**  Messages of different origins have
different records, time stamps aside, unless they clash in the empty key. -/
theorem record_determines_origin_iff {x y : FailedMessage}
    {dlqTopic failedAt failedAt' : String} {r r' : DlqRecord}
    (hr : x.record dlqTopic failedAt = .ok r) (hr' : y.record dlqTopic failedAt' = .ok r') :
    (x.origin ≠ y.origin → r.withoutFailedAt ≠ r'.withoutFailedAt) ↔ ¬EmptyKeyClash x y := by
  constructor
  · intro hdetermined hclash
    refine hdetermined ?_ (hclash.same_record hr hr')
    intro hsame
    have hkey := congrArg Origin.key hsame
    rcases hclash.keys with ⟨hx, hy⟩ | ⟨hx, hy⟩ <;> rw [hx, hy] at hkey <;> cases hkey
  · intro hnoclash hdiffer hsame
    have hreplay := replay_record hr
    rw [hsame, replay_record hr'] at hreplay
    have horigin := Option.some.inj hreplay
    simp only [Origin.withoutEmptyKey, Origin.mk.injEq] at horigin
    obtain ⟨hkey, horder, htopic, hpartition, hoffset⟩ := horigin
    obtain ⟨hclass, htext, hcount⟩ := record_error_determined hr hr' hsame
    rcases keys_of_filter_eq hkey.symm with hsamekey | hkeys
    · apply hdiffer
      exact Origin.ext hsamekey horder.symm htopic.symm hpartition.symm hoffset.symm
    · exact hnoclash ⟨hkeys, ⟨horder.symm, htopic.symm, hpartition.symm, hoffset.symm⟩,
        hclass, htext, hcount⟩

theorem sample_price : ∃ q, PyFloat.finite 10 = .finite q ∧ PyFloat.IsBinary32 q :=
  ⟨10, rfl, 10, 0, by decide, by decide, by decide, by norm_num⟩

/-- A record with an empty order id that `validate` has rejected. -/
def unnamedFailure (key : Option String) : FailedMessage where
  origin := ⟨key, ⟨"", "Item1", .finite 10⟩, "orders", 0, 0⟩
  error := some (validationError "orderId is empty")
  retryCount := 1
  finitePrice := sample_price

def monday : String := "2026-01-05T10:00:00+00:00"

def tuesday : String := "2026-01-06T10:00:00+00:00"

/-- With a key and without one the records differ. -/
theorem keyed_failure_differs :
    ∃ r r', (unnamedFailure (some "1001")).record "orders.DLQ" monday = .ok r ∧
      (unnamedFailure none).record "orders.DLQ" tuesday = .ok r' ∧
      r.withoutFailedAt ≠ r'.withoutFailedAt := by
  obtain ⟨r, hr⟩ : ∃ r, (unnamedFailure (some "1001")).record "orders.DLQ" monday = .ok r :=
    buildRecord_ofText ..
  obtain ⟨r', hr'⟩ : ∃ r', (unnamedFailure none).record "orders.DLQ" tuesday = .ok r' :=
    buildRecord_ofText ..
  refine ⟨r, r', hr, hr', (record_determines_origin_iff hr hr').mpr ?_ (by decide)⟩
  intro hclash
  rcases hclash.keys with ⟨hx, -⟩ | ⟨hx, -⟩
  · cases hx
  · exact absurd hx (by decide)

/-- With the empty key and without one they are the same. -/
theorem empty_key_is_lost :
    ∃ r r', (unnamedFailure (some "")).record "orders.DLQ" monday = .ok r ∧
      (unnamedFailure none).record "orders.DLQ" tuesday = .ok r' ∧
      (unnamedFailure (some "")).origin ≠ (unnamedFailure none).origin ∧
      r.withoutFailedAt = r'.withoutFailedAt := by
  obtain ⟨r, hr⟩ : ∃ r, (unnamedFailure (some "")).record "orders.DLQ" monday = .ok r :=
    buildRecord_ofText ..
  obtain ⟨r', hr'⟩ : ∃ r', (unnamedFailure none).record "orders.DLQ" tuesday = .ok r' :=
    buildRecord_ofText ..
  have hclash : EmptyKeyClash (unnamedFailure (some "")) (unnamedFailure none) :=
    ⟨Or.inr ⟨rfl, rfl⟩, ⟨rfl, rfl, rfl, rfl⟩, rfl, rfl, rfl⟩
  exact ⟨r, r', hr, hr', by decide, hclash.same_record hr hr'⟩

end OrderPipeline
