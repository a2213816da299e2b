import OrderPipeline.Dlq
import OrderPipeline.Foundation.IntText
import OrderPipeline.Foundation.PyDict
import OrderPipeline.Foundation.Utf8

/-!
# Reading the dead letter queue

`tools/read_dlq.py`: the decoding of the headers and the report on a message.
How the payload is laid out below the headers is a parameter.

The reader is written apart from the writer in `consumer/dlq.py`; what ties them
is `ALL_HEADERS`.  `reader_agrees_with_writer` says that it recovers every header
the writer wrote, and that its report finds all seven and nothing else.
-/

namespace OrderPipeline

open PyStr

/-- `ALL_HEADERS`. -/
def allHeaders : List String :=
  [hdrOriginalTopic, hdrOriginalPartition, hdrOriginalOffset, hdrErrorClass,
    hdrErrorMessage, hdrRetryCount, hdrFailedAt]

/-- `decode_headers`. -/
def decodeHeaders (raw : Option (List (String × Option Bytes))) : List (String × PyStr) :=
  match raw with
  | none => []
  | some pairs => PyDict.ofPairs (pairs.map fun (k, v) =>
      (k, match v with
        | some bytes => decodeReplace bytes
        | none => []))

/-- A message of the dead letter topic. -/
structure DlqMessage where
  partition : ℤ
  offset : ℤ
  key : Option Bytes
  value : Option Bytes
  headers : Option (List (String × Option Bytes))

/-- `n` copies of a character. -/
def rule (c : Char) (n : ℕ) : PyStr := List.replicate n (ofChar c)

/-- `f"{name:<24}"`. -/
def padName (name : String) : PyStr :=
  ofString name ++ rule ' ' (24 - name.length)

/-- The line of a header, its value included. -/
def headerLine (name : String) (value : PyStr) : PyStr :=
  ofString "  " ++ padName name ++ ofString " " ++ value

/-- The lines of the known headers, in their fixed order. -/
def knownLines (headers : List (String × PyStr)) : List PyStr :=
  allHeaders.map fun name =>
    headerLine name ((headers.lookup name).getD (ofString "<MISSING>"))

/-- The lines of anything unexpected. -/
def unexpectedLines (headers : List (String × PyStr)) : List PyStr :=
  (headers.filter fun entry => entry.1 ∉ allHeaders).map fun entry =>
    headerLine entry.1 entry.2 ++ ofString "   (unexpected)"

/-- The known headers that a message lacks. -/
def missing (headers : List (String × PyStr)) : List String :=
  allHeaders.filter fun name => name ∉ headers.map Prod.fst

/-- The `header check` line. -/
def checkLine (headers : List (String × PyStr)) : PyStr :=
  ofString "  header check: " ++
    ofString (toString ((allHeaders.length : ℤ) - (missing headers).length)) ++
    ofString "/" ++ ofString (toString allHeaders.length) ++ ofString " present" ++
    (if missing headers = [] then ofString "  (all present)"
      else ofString "  MISSING: " ++ ofString (String.intercalate ", " (missing headers)))

/-- The lines above the headers. -/
def titleLines (index : ℤ) (msg : DlqMessage) : List PyStr :=
  let key := match msg.key with
    | none | some [] => ofString "<none>"
    | some bytes => decodeReplace bytes
  [[], rule '=' 72,
    ofString ("DLQ MESSAGE #" ++ toString index ++ "   (dlq partition=" ++
      toString msg.partition ++ " offset=" ++ toString msg.offset ++ ")"),
    rule '=' 72, ofString "  key: " ++ key,
    ofString "  ---- error metadata (headers) " ++ rule '-' 39]

/-- `format_message`; `payloadLines` lays out the value of the message. -/
def formatMessage (payloadLines : Option Bytes → List PyStr) (index : ℤ)
    (msg : DlqMessage) : PyStr :=
  let headers := decodeHeaders msg.headers
  let lines := titleLines index msg ++ knownLines headers ++ unexpectedLines headers ++
    [ofString "  " ++ rule '-' 69, checkLine headers,
      ofString "  ---- original payload " ++ rule '-' 47] ++
    (payloadLines msg.value).map (ofString "  " ++ ·)
  List.intercalate (ofString "\n") lines

/-! ## What the reader recovers -/

/-- The headers as the client hands them over. -/
def received (headers : List (String × Bytes)) : Option (List (String × Option Bytes)) :=
  some (headers.map fun (k, v) => (k, some v))

/-- The decoded headers of a dead letter, by what they say about its origin. -/
structure Recovers (topic : String) (p n : ℤ) (error : Exn) (retryCount : ℤ)
    (failedAt : String) (headers : List (String × PyStr)) : Prop where
  keys : headers.map Prod.fst = allHeaders
  topic : headers.lookup hdrOriginalTopic = some (ofString topic)
  partition : (headers.lookup hdrOriginalPartition).bind intOf? = some p
  offset : (headers.lookup hdrOriginalOffset).bind intOf? = some n
  errorClass : headers.lookup hdrErrorClass = some error.cls.name
  errorMessage : headers.lookup hdrErrorMessage = some (error.text.take 1000)
  retryCount : (headers.lookup hdrRetryCount).bind intOf? = some retryCount
  failedAt : headers.lookup hdrFailedAt = some (ofString failedAt)

/-- No header name is listed twice. -/
theorem allHeaders_nodup : allHeaders.Nodup := by decide

/-- Distinct names: the map has every header that was written, in that order. -/
theorem decodeHeaders_received {headers : List (String × Bytes)}
    (h : (headers.map Prod.fst).Nodup) :
    decodeHeaders (received headers) = headers.map fun (k, v) => (k, decodeReplace v) := by
  unfold decodeHeaders received
  simp only [List.map_map, Function.comp_def]
  apply PyDict.ofPairs_of_nodup
  simpa [List.map_map, Function.comp_def] using h

/-- The map that the reader makes of the writer's headers: each name once, with the text
it was written with. -/
theorem decodeHeaders_buildHeaders {topic failedAt : String} {p n retryCount : ℤ}
    {error : Exn} {headers : List (String × Bytes)}
    (h : buildHeaders topic p n (some error) retryCount failedAt = .ok headers) :
    decodeHeaders (received headers) = [
      (hdrOriginalTopic, ofString topic),
      (hdrOriginalPartition, ofString (toString p)),
      (hdrOriginalOffset, ofString (toString n)),
      (hdrErrorClass, error.cls.name),
      (hdrErrorMessage, error.text.take 1000),
      (hdrRetryCount, ofString (toString retryCount)),
      (hdrFailedAt, ofString failedAt)] := by
  obtain ⟨cls, text, hcls, htext, rfl⟩ := buildHeaders_ok_iff.mp h
  rw [decodeHeaders_received (by exact allHeaders_nodup)]
  simp only [List.map_cons, List.map_nil, decodeReplace_encodeString,
    decodeReplace_encode hcls, decodeReplace_encode htext]
  rfl

/-- The headers of a record, decoded by the reader, give back every argument that
`build_headers` was called with; of the error text its first 1000 characters. -/
theorem recovers_of_buildHeaders {topic failedAt : String} {p n retryCount : ℤ}
    {error : Exn} {headers : List (String × Bytes)}
    (h : buildHeaders topic p n (some error) retryCount failedAt = .ok headers) :
    Recovers topic p n error retryCount failedAt (decodeHeaders (received headers)) := by
  rw [decodeHeaders_buildHeaders h]
  exact
    { keys := rfl
      topic := rfl
      partition := intOf?_toString p
      offset := intOf?_toString n
      errorClass := rfl
      errorMessage := rfl
      retryCount := intOf?_toString retryCount
      failedAt := rfl }

/-! ## The report -/

/-- With exactly the known names nothing is missing. -/
theorem missing_of_keys {headers : List (String × PyStr)}
    (h : headers.map Prod.fst = allHeaders) : missing headers = [] := by
  unfold missing
  rw [h, List.filter_eq_nil_iff]
  intro name hname
  simpa using hname

/-- Nor is anything unexpected. -/
theorem unexpectedLines_of_keys {headers : List (String × PyStr)}
    (h : headers.map Prod.fst = allHeaders) : unexpectedLines headers = [] := by
  unfold unexpectedLines
  rw [List.map_eq_nil_iff, List.filter_eq_nil_iff]
  intro entry hentry
  have hmem : entry.1 ∈ allHeaders := h ▸ List.mem_map_of_mem hentry
  simpa using hmem

/-- With the seven headers in place the check finds none missing. -/
theorem checkLine_of_keys {headers : List (String × PyStr)}
    (h : headers.map Prod.fst = allHeaders) :
    checkLine headers = ofString "  header check: 7/7 present  (all present)" := by
  unfold checkLine
  rw [missing_of_keys h]
  rfl

/-- Each known line shows the value under its name. -/
theorem knownLines_of_keys {headers : List (String × PyStr)}
    (h : headers.map Prod.fst = allHeaders) :
    knownLines headers = headers.map fun entry => headerLine entry.1 entry.2 := by
  have hnodup : (headers.map Prod.fst).Nodup := h ▸ allHeaders_nodup
  unfold knownLines
  rw [← h, List.map_map]
  apply List.map_congr_left
  intro entry hentry
  show headerLine entry.1 ((headers.lookup entry.1).getD _) = _
  rw [PyDict.lookup_of_mem hnodup hentry, Option.getD_some]

/-- A report that finds every header: each with its value, and the count 7/7. -/
def completeReport (payloadLines : Option Bytes → List PyStr) (index : ℤ)
    (msg : DlqMessage) : PyStr :=
  List.intercalate (ofString "\n")
    (titleLines index msg ++
      (decodeHeaders msg.headers).map (fun entry => headerLine entry.1 entry.2) ++
      [ofString "  " ++ rule '-' 69,
        ofString "  header check: 7/7 present  (all present)",
        ofString "  ---- original payload " ++ rule '-' 47] ++
      (payloadLines msg.value).map (ofString "  " ++ ·))

/-- The report on a message misses nothing and finds nothing unexpected. -/
structure ReportsAll (payloadLines : Option Bytes → List PyStr) (index : ℤ)
    (msg : DlqMessage) : Prop where
  noneMissing : missing (decodeHeaders msg.headers) = []
  noneUnexpected : unexpectedLines (decodeHeaders msg.headers) = []
  text : formatMessage payloadLines index msg = completeReport payloadLines index msg

/-- A message that has the seven headers and no other is reported as complete. -/
theorem reportsAll_of_keys (payloadLines : Option Bytes → List PyStr) (index : ℤ)
    {msg : DlqMessage} (h : (decodeHeaders msg.headers).map Prod.fst = allHeaders) :
    ReportsAll payloadLines index msg where
  noneMissing := missing_of_keys h
  noneUnexpected := unexpectedLines_of_keys h
  text := by
    unfold formatMessage completeReport
    simp only [knownLines_of_keys h, unexpectedLines_of_keys h, checkLine_of_keys h,
      List.append_nil]

/-- **The reader agrees with the writer**: every header of a dead letter is
recovered, and the report finds all of them and nothing else. -/
theorem reader_agrees_with_writer (topic failedAt : String) (p n retryCount : ℤ)
    (error : Exn) (hname : ∀ c ∈ error.cls.name, isSurrogate c = false)
    (htext : ∀ c ∈ error.text, isSurrogate c = false) :
    ∃ headers, buildHeaders topic p n (some error) retryCount failedAt = .ok headers ∧
      Recovers topic p n error retryCount failedAt (decodeHeaders (received headers)) ∧
      ∀ (payloadLines : Option Bytes → List PyStr) (index : ℤ) (msg : DlqMessage),
        msg.headers = received headers → ReportsAll payloadLines index msg := by
  have htake : ∀ c ∈ error.text.take 1000, isSurrogate c = false := by
    intro c hc
    exact htext c (List.mem_of_mem_take hc)
  obtain ⟨headers, hheaders⟩ :=
    (buildHeaders_returns_iff topic failedAt p n retryCount error).mpr ⟨hname, htake⟩
  have hrecovers := recovers_of_buildHeaders hheaders
  refine ⟨headers, hheaders, hrecovers, ?_⟩
  intro payloadLines index msg hmsg
  apply reportsAll_of_keys
  rw [hmsg]
  exact hrecovers.keys

/-- A record of a POISON order at offset 0, with a text beyond ASCII. -/
theorem poison_headers_read_back :
    ∃ headers, buildHeaders "orders" 0 0
        (some (permanentError "product 'POISON' — not sellable")) (-1)
        "2026-01-02T03:04:05+00:00" = .ok headers ∧
      Recovers "orders" 0 0 (permanentError "product 'POISON' — not sellable") (-1)
        "2026-01-02T03:04:05+00:00" (decodeHeaders (received headers)) ∧
      ∀ (payloadLines : Option Bytes → List PyStr) (index : ℤ) (msg : DlqMessage),
        msg.headers = received headers → ReportsAll payloadLines index msg :=
  reader_agrees_with_writer "orders" "2026-01-02T03:04:05+00:00" 0 0 (-1)
    (permanentError "product 'POISON' — not sellable")
    (isSurrogate_ofString _) (isSurrogate_ofString _)

end OrderPipeline
