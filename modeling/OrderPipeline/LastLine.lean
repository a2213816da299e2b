import OrderPipeline.Dlq

/-!
# When the dead letter queue itself fails

`publish` takes any order value and any exception.  `default=str` covers every
leaf, but not the keys of a dict, and a header is encoded strictly.  So the two
builders return, and `publish` reaches `produce`, exactly when

* every key of every nested dict is a string, a number, a bool or None, and
* neither the class name nor the first thousand characters of the exception's
  text contain a surrogate (`publish_reaches_produce_iff`).

Surrogates in the order itself do no harm: `dumps` escapes them.
-/

namespace OrderPipeline

/-- The first half of `publish` for any order value; `buildRecord` is its case
for a decoded order. -/
def produceArgs (dlqTopic : String) (order : Option PyValue) (key : Option String)
    (originalTopic : String) (originalPartition originalOffset : ℤ)
    (error : Option Exn) (retryCount : ℤ) (failedAt : String) :
    Except Exn DlqRecord := do
  let headers ← buildHeaders originalTopic originalPartition originalOffset error
    retryCount failedAt
  let value ← buildPayload order
  .ok { topic := dlqTopic, key := encodeKey key, value := value, headers := headers }

/-- The record the consumer publishes is the one `publish` makes of the order as a
Python dict. -/
theorem buildRecord_eq_produceArgs (dlqTopic topic failedAt : String) (order : Option Order)
    (key : Option String) (p n retryCount : ℤ) (error : Option Exn) :
    buildRecord dlqTopic order key topic p n error retryCount failedAt =
      produceArgs dlqTopic (order.map Order.toPy) key topic p n error retryCount failedAt :=
  rfl

/-- What an order and an exception need for a dead letter to be written. -/
structure Publishable (order : Option PyValue) (error : Exn) : Prop where
  keys : ∀ v, order = some v → Json.keysOk v
  className : ∀ c ∈ error.cls.name, PyStr.isSurrogate c = false
  message : ∀ c ∈ error.text.take 1000, PyStr.isSurrogate c = false

/-- The payload depends on the keys alone, for every value has a text in the end; None
has a fixed envelope. -/
theorem buildPayload_ok_iff (order : Option PyValue) :
    (∃ payload, buildPayload order = .ok payload) ↔ ∀ v, order = some v → Json.keysOk v := by
  cases order with
  | none =>
      refine iff_of_true ⟨_, rfl⟩ ?_
      intro v hv
      cases hv
  | some v =>
      have hkeys : (∀ w, some v = some w → Json.keysOk w) ↔ Json.keysOk v := by
        constructor
        · intro h
          exact h v rfl
        · rintro h w ⟨⟩
          exact h
      rw [hkeys, ← Json.dumps_ok_iff v, buildPayload, Option.getD_some]
      cases Json.dumps v <;> simp [bind, Except.bind]

/-- The two builders return together exactly for what is publishable. -/
theorem builders_return_iff (order : Option PyValue) (error : Exn)
    (topic failedAt : String) (p n retryCount : ℤ) :
    ((∃ payload, buildPayload order = .ok payload) ∧
      ∃ headers, buildHeaders topic p n (some error) retryCount failedAt = .ok headers) ↔
      Publishable order error := by
  rw [buildPayload_ok_iff, buildHeaders_returns_iff]
  constructor
  · rintro ⟨hkeys, hname, hmessage⟩
    exact ⟨hkeys, hname, hmessage⟩
  · rintro ⟨hkeys, hname, hmessage⟩
    exact ⟨hkeys, hname, hmessage⟩

/-- `publish` reaches `produce` when both builders return. -/
theorem produceArgs_ok_iff (dlqTopic topic failedAt : String) (order : Option PyValue)
    (key : Option String) (p n retryCount : ℤ) (error : Option Exn) :
    (∃ r, produceArgs dlqTopic order key topic p n error retryCount failedAt = .ok r) ↔
      (∃ payload, buildPayload order = .ok payload) ∧
        ∃ headers, buildHeaders topic p n error retryCount failedAt = .ok headers := by
  unfold produceArgs
  cases buildHeaders topic p n error retryCount failedAt <;> cases buildPayload order <;>
    simp [bind, Except.bind]

/-- **The last line of defence holds exactly for publishable records**: every
order value and every exception, nested keys and surrogates included. -/
theorem publish_reaches_produce_iff (dlqTopic topic failedAt : String)
    (order : Option PyValue) (key : Option String) (p n retryCount : ℤ) (error : Exn) :
    (((∃ payload, buildPayload order = .ok payload) ∧
      ∃ headers, buildHeaders topic p n (some error) retryCount failedAt = .ok headers) ↔
        Publishable order error) ∧
      ((∃ r, produceArgs dlqTopic order key topic p n (some error) retryCount failedAt =
        .ok r) ↔ Publishable order error) := by
  have hbuilders := builders_return_iff order error topic failedAt p n retryCount
  refine ⟨hbuilders, ?_⟩
  rw [produceArgs_ok_iff, hbuilders]

/-- A dict with a tuple as key has no payload, and an exception whose text is a
lone surrogate has no headers. -/
theorem tuple_key_and_surrogate_fail :
    (∃ e, buildPayload (some (.dict [(.other "tuple", .int 1)])) = .error e) ∧
      ∃ e, buildHeaders "orders" 0 7
        (some ⟨⟨PyStr.ofString "ValueError", []⟩, [0xd800]⟩) 1 "2026-01-02T03:04:05+00:00" =
          .error e :=
  ⟨⟨_, rfl⟩, _, rfl⟩

/-- Neither a surrogate in the order nor a leaf of another type stops `publish`. -/
example : ∃ payload, buildPayload (some (.dict [(.str [0xd800], .list [.object [0xdfff]])])) =
    .ok payload :=
  (buildPayload_ok_iff _).mpr (by rintro v ⟨⟩; rfl)

end OrderPipeline
