import OrderPipeline.Json
import OrderPipeline.Records

/-!
# Dead letter queue records

The pure part of `consumer/dlq.py`: the headers, the payload and the record
that `publish` hands to `produce`.  A header value is bytes, so a text that
does not encode makes `build_headers` raise.
-/

namespace OrderPipeline

/-- `HDR_ORIGINAL_TOPIC`. -/
def hdrOriginalTopic : String := "x-original-topic"

/-- `HDR_ORIGINAL_PARTITION`. -/
def hdrOriginalPartition : String := "x-original-partition"

/-- `HDR_ORIGINAL_OFFSET`. -/
def hdrOriginalOffset : String := "x-original-offset"

/-- `HDR_ERROR_CLASS`. -/
def hdrErrorClass : String := "x-error-class"

/-- `HDR_ERROR_MESSAGE`. -/
def hdrErrorMessage : String := "x-error-message"

/-- `HDR_RETRY_COUNT`. -/
def hdrRetryCount : String := "x-retry-count"

/-- `HDR_FAILED_AT`. -/
def hdrFailedAt : String := "x-failed-at"

/-- `type(error).__name__`; the error may be None. -/
def errorClassName : Option Exn → PyStr
  | none => PyStr.ofString "NoneType"
  | some exc => exc.cls.name

/-- `str(error)`. -/
def errorText : Option Exn → PyStr
  | none => PyStr.ofString "None"
  | some exc => exc.text

def unicodeEncodeError : Exn :=
  Exn.ofText "UnicodeEncodeError" [] "'utf-8' codec can't encode: surrogates not allowed"

/-- `s.encode("utf-8")`, raising. -/
def encodeOrRaise (s : PyStr) : Except Exn Bytes :=
  match s.encode with
  | none => .error unicodeEncodeError
  | some bytes => .ok bytes

/-- `build_headers`; `failedAt` is the ISO text of the time stamp. -/
def buildHeaders (originalTopic : String) (originalPartition originalOffset : ℤ)
    (error : Option Exn) (retryCount : ℤ) (failedAt : String) :
    Except Exn (List (String × Bytes)) := do
  let errorClass ← encodeOrRaise (errorClassName error)
  let errorMessage ← encodeOrRaise ((errorText error).take 1000)
  .ok [
    (hdrOriginalTopic, PyStr.encodeString originalTopic),
    (hdrOriginalPartition, PyStr.encodeString (toString originalPartition)),
    (hdrOriginalOffset, PyStr.encodeString (toString originalOffset)),
    (hdrErrorClass, errorClass),
    (hdrErrorMessage, errorMessage),
    (hdrRetryCount, PyStr.encodeString (toString retryCount)),
    (hdrFailedAt, PyStr.encodeString failedAt)]

/-- The order dict as a Python value. -/
def Order.toPy (o : Order) : PyValue :=
  let entry (name : String) (v : Option PyValue) : List (PyKey × PyValue) :=
    v.toList.map fun v => (.str (PyStr.ofString name), v)
  .dict (entry "orderId" (o.orderId.map fun s => .str (PyStr.ofString s)) ++
    entry "product" (o.product.map fun s => .str (PyStr.ofString s)) ++
    entry "price" (o.price.map .float))

/-- `build_payload`. -/
def buildPayload (order : Option PyValue) : Except Exn Bytes := do
  let value := order.getD (.dict [(.str (PyStr.ofString "error"),
    .str (PyStr.ofString "value was null or could not be decoded"))])
  let text ← Json.dumps value
  .ok (text.flatMap String.utf8EncodeChar)

/-- `key.encode("utf-8") if key else None`. -/
def encodeKey : Option String → Option Bytes
  | none => none
  | some key => if key = "" then none else some (PyStr.encodeString key)

/-- What `publish` hands to `produce`. -/
structure DlqRecord where
  topic : String
  key : Option Bytes
  value : Bytes
  headers : List (String × Bytes)
  deriving DecidableEq

/-- A DLQ record without its time stamp. -/
def DlqRecord.withoutFailedAt (r : DlqRecord) : DlqRecord :=
  { r with headers := r.headers.filter fun header => header.1 ≠ hdrFailedAt }

/-- The first half of `publish`: the arguments of `produce`. -/
def buildRecord (dlqTopic : String) (order : Option Order) (key : Option String)
    (originalTopic : String) (originalPartition originalOffset : ℤ)
    (error : Option Exn) (retryCount : ℤ) (failedAt : String) :
    Except Exn DlqRecord := do
  let headers ← buildHeaders originalTopic originalPartition originalOffset error
    retryCount failedAt
  let value ← buildPayload (order.map Order.toPy)
  .ok { topic := dlqTopic, key := encodeKey key, value := value, headers := headers }

/-- `DeadLetterQueue`: its counter, and what it has handed to `produce`. -/
structure DeadLetterQueue where
  published : ℕ := 0
  sent : List DlqRecord := []

/-! ## What the builders return -/

/-- An order always has a payload: its keys are strings. -/
theorem buildPayload_order (o : Option Order) :
    ∃ bytes, buildPayload (o.map Order.toPy) = .ok bytes := by
  cases o with
  | none => exact ⟨_, rfl⟩
  | some o =>
      obtain ⟨orderId, product, price⟩ := o
      cases orderId <;> cases product <;> cases price <;> exact ⟨_, rfl⟩

/-- The headers exist exactly when the class name and the text encode, and then they are
these seven in this order. -/
theorem buildHeaders_ok_iff {topic : String} {p n retryCount : ℤ}
    {error : Option Exn} {failedAt : String} {headers : List (String × Bytes)} :
    buildHeaders topic p n error retryCount failedAt = .ok headers ↔
      ∃ cls text, PyStr.encode (errorClassName error) = some cls ∧
        PyStr.encode ((errorText error).take 1000) = some text ∧
        headers = [
          (hdrOriginalTopic, PyStr.encodeString topic),
          (hdrOriginalPartition, PyStr.encodeString (toString p)),
          (hdrOriginalOffset, PyStr.encodeString (toString n)),
          (hdrErrorClass, cls),
          (hdrErrorMessage, text),
          (hdrRetryCount, PyStr.encodeString (toString retryCount)),
          (hdrFailedAt, PyStr.encodeString failedAt)] := by
  unfold buildHeaders encodeOrRaise
  cases hclass : PyStr.encode (errorClassName error) with
  | none =>
      constructor
      · intro h
        cases h
      · rintro ⟨cls, text, hcls, -⟩
        cases hcls
  | some cls =>
      cases htext : PyStr.encode ((errorText error).take 1000) with
      | none =>
          constructor
          · intro h
            cases h
          · rintro ⟨cls', text, -, htext', -⟩
            cases htext'
      | some text =>
          constructor
          · intro h
            exact ⟨cls, text, rfl, rfl, (Except.ok.inj h).symm⟩
          · rintro ⟨cls', text', hcls, htext', rfl⟩
            rw [← Option.some.inj hcls, ← Option.some.inj htext']
            rfl

/-- The headers depend on the two texts of the exception alone. -/
theorem buildHeaders_returns_iff (topic failedAt : String) (p n retryCount : ℤ)
    (error : Exn) :
    (∃ headers, buildHeaders topic p n (some error) retryCount failedAt = .ok headers) ↔
      (∀ c ∈ error.cls.name, PyStr.isSurrogate c = false) ∧
        ∀ c ∈ error.text.take 1000, PyStr.isSurrogate c = false := by
  rw [← PyStr.encode_isSome_iff, ← PyStr.encode_isSome_iff, Option.isSome_iff_exists,
    Option.isSome_iff_exists]
  constructor
  · rintro ⟨headers, h⟩
    obtain ⟨cls, text, hcls, htext, -⟩ := buildHeaders_ok_iff.mp h
    exact ⟨⟨cls, hcls⟩, text, htext⟩
  · rintro ⟨⟨cls, hcls⟩, text, htext⟩
    exact ⟨_, buildHeaders_ok_iff.mpr ⟨cls, text, hcls, htext, rfl⟩⟩

/-- A record is built from its headers and its payload. -/
theorem buildRecord_ok_iff {dlqTopic topic failedAt : String} {order : Option Order}
    {key : Option String} {p n retryCount : ℤ} {error : Option Exn} {r : DlqRecord} :
    buildRecord dlqTopic order key topic p n error retryCount failedAt = .ok r ↔
      ∃ headers value, buildHeaders topic p n error retryCount failedAt = .ok headers ∧
        buildPayload (order.map Order.toPy) = .ok value ∧
        r = ⟨dlqTopic, encodeKey key, value, headers⟩ := by
  unfold buildRecord
  obtain ⟨value, hvalue⟩ := buildPayload_order order
  cases hheaders : buildHeaders topic p n error retryCount failedAt with
  | error e =>
      constructor
      · intro h
        cases h
      · rintro ⟨headers, value', h, -⟩
        cases h
  | ok headers =>
      rw [hvalue]
      constructor
      · intro h
        exact ⟨headers, value, rfl, rfl, (Except.ok.inj h).symm⟩
      · rintro ⟨headers', value', h, hv, rfl⟩
        rw [← Except.ok.inj h, ← Except.ok.inj hv]
        rfl

/-- The retry header of a record is the count it was built with. -/
theorem buildRecord_retryCount {dlqTopic topic failedAt : String} {order : Option Order}
    {key : Option String} {p n retryCount : ℤ} {error : Option Exn} {r : DlqRecord}
    (h : buildRecord dlqTopic order key topic p n error retryCount failedAt = .ok r) :
    r.headers.lookup hdrRetryCount = some (PyStr.encodeString (toString retryCount)) := by
  obtain ⟨headers, value, hheaders, -, rfl⟩ := buildRecord_ok_iff.mp h
  obtain ⟨cls, text, -, -, rfl⟩ := buildHeaders_ok_iff.mp hheaders
  rfl

/-- The absence of an error does not stop `publish`. -/
theorem buildRecord_noError (dlqTopic topic failedAt : String) (order : Option Order)
    (key : Option String) (p n retryCount : ℤ) :
    ∃ r, buildRecord dlqTopic order key topic p n none retryCount failedAt = .ok r := by
  obtain ⟨value, hvalue⟩ := buildPayload_order order
  refine ⟨_, buildRecord_ok_iff.mpr ⟨_, value, buildHeaders_ok_iff.mpr
    ⟨_, _, PyStr.encode_ofString "NoneType", PyStr.encode_take_ofString 1000 "None", rfl⟩,
    hvalue, rfl⟩⟩

/-- An error whose class name and text are plain text never stops `publish`. -/
theorem buildRecord_ofText (dlqTopic topic failedAt : String) (order : Option Order)
    (key : Option String) (p n retryCount : ℤ) (name : String)
    (bases : List ExnBase) (text : String) :
    ∃ r, buildRecord dlqTopic order key topic p n
      (some (Exn.ofText name bases text)) retryCount failedAt = .ok r := by
  obtain ⟨value, hvalue⟩ := buildPayload_order order
  refine ⟨_, buildRecord_ok_iff.mpr ⟨_, value, buildHeaders_ok_iff.mpr
    ⟨_, _, PyStr.encode_ofString name, PyStr.encode_take_ofString 1000 text, rfl⟩,
    hvalue, rfl⟩⟩

end OrderPipeline
