import Mathlib.Data.Finset.Range
import OrderPipeline.Foundation.PyFloat

/-!
# Orders, records and partition logs

An order is a Python dict with the keys of `schemas/order.avsc`; reading a key
gives what `dict.get` gives.  A decoded record has all three keys
(`AvroOrder`), and `dictToOrder` is the hook that hands it to the application.

A partition is a log of records.  The value of a record is an encoded order, a
null value (a tombstone), or bytes that the key or value deserializer rejects.
-/

namespace OrderPipeline

/-- An order as the application sees it: the answers of `order.get`. -/
structure Order where
  orderId : Option String
  product : Option String
  price : Option PyFloat
  deriving DecidableEq

/-- The Avro record `Order`: every field is required. -/
structure AvroOrder where
  orderId : String
  product : String
  price : PyFloat
  deriving DecidableEq

/-- `dict_to_order`: the decoded record, as it is. -/
def dictToOrder (obj : AvroOrder) : Order :=
  ⟨some obj.orderId, some obj.product, some obj.price⟩

/-- What the bytes of a record decode to. -/
inductive Content
  | order (o : AvroOrder)
  | tombstone
  | undecodable
  deriving DecidableEq

/-- A record of a partition; its offset is its place in the log. -/
structure Record where
  key : Option String
  content : Content
  deriving DecidableEq

/-- A topic: its partition logs, numbered from 0. -/
structure Topic where
  name : String
  partitions : List (List Record)

/-- The log of a partition; a partition the topic does not have is empty. -/
def Topic.log (t : Topic) (p : ℕ) : List Record := t.partitions.getD p []

/-- The partition numbers of a topic. -/
def Topic.parts (t : Topic) : Finset ℕ := Finset.range t.partitions.length

/-- A consumed message, as `poll` returns it. -/
structure Message where
  topic : String
  partition : ℕ
  offset : ℕ
  key : Option String
  value : Option Order
  deriving DecidableEq

/-- The message of a record; undecodable bytes have none. -/
def Record.message? (r : Record) (topic : String) (p offset : ℕ) : Option Message :=
  match r.content with
  | .order o => some ⟨topic, p, offset, r.key, some (dictToOrder o)⟩
  | .tombstone => some ⟨topic, p, offset, r.key, none⟩
  | .undecodable => none

/-- A partition that has a record is one of the topic's. -/
theorem Topic.mem_parts {t : Topic} {p n : ℕ} {r : Record}
    (h : (t.log p)[n]? = some r) : p ∈ t.parts := by
  have hlog : t.log p ≠ [] := by
    intro hnil
    rw [hnil] at h
    simp at h
  have hlt : p < t.partitions.length := by
    apply Classical.byContradiction
    intro hge
    apply hlog
    simp [Topic.log, List.getD_eq_getElem?_getD, List.getElem?_eq_none (not_lt.mp hge)]
  exact Finset.mem_range.mpr hlt

/-- A message keeps the coordinates of its record. -/
theorem Record.message?_coordinates {r : Record} {topic : String} {p n : ℕ}
    {m : Message} (h : r.message? topic p n = some m) :
    m.partition = p ∧ m.offset = n := by
  unfold Record.message? at h
  cases hc : r.content with
  | order o | tombstone =>
      rw [hc] at h
      obtain rfl := Option.some.inj h
      exact ⟨rfl, rfl⟩
  | undecodable =>
      rw [hc] at h
      cases h

end OrderPipeline
