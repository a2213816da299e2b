import OrderPipeline.DeadLetterContent
import OrderPipeline.ReadLoop

/-!
# From a failure to its report

`tools/read_dlq.py` over what the consumer has published.

A message of the DLQ topic that carries the record published for a failed outcome is
told in full (`Handling.Told`): its report finds the seven headers, they name the record
of the source topic, the error and the attempts, and the block below them is loaded as
the dict of the order.

So over every run of the system the reader tells the truth, and no failure twice
(`reports_tell_failures`); and if the commits wait for the delivery reports, then of the
records behind the committed positions it tells every one that was not aggregated
(`committed_failures_are_told`).
-/

namespace OrderPipeline

open PyStr Runs

/-! ## One report -/

/-- The message of the DLQ topic has the key, the value and the headers of a record. -/
structure DlqMessage.Carries (msg : DlqMessage) (r : DlqRecord) : Prop where
  key : msg.key = r.key
  value : msg.value = some r.value
  headers : msg.headers = received r.headers

/-- What the headers of the copy of a failed outcome are decoded to. -/
def Handling.headerTexts (t : Topic) (h : Handling) (failedAt : String) :
    List (String × PyStr) :=
  [(hdrOriginalTopic, ofString t.name),
    (hdrOriginalPartition, ofString (toString h.message.partition)),
    (hdrOriginalOffset, ofString (toString h.message.offset)),
    (hdrErrorClass, errorClassName h.outcome.error),
    (hdrErrorMessage, (errorText h.outcome.error).take 1000),
    (hdrRetryCount, ofString (toString h.outcome.attempts)),
    (hdrFailedAt, ofString failedAt)]

/-- The reports on a message, whatever their number, tell a failed outcome in full. -/
structure Handling.Told (t : Topic) (h : Handling) (msg : DlqMessage) : Prop where
  headers : ∃ failedAt, decodeHeaders msg.headers = h.headerTexts t failedAt
  complete : ∀ index, ReportsAll payloadLines index msg
  payload : ∃ o, (t.log h.message.partition)[h.message.offset]? =
      some ⟨h.message.key, .order o⟩ ∧
    ∀ index, ∃ block, formatMessage payloadLines index msg =
      reportHead index msg ++ ofString "\n" ++ block.map ofChar ∧
      PyJson.loads block = some (orderDict o)

/-- The finite prices of the topic are binary32 floats, as its schema has them. -/
def Topic.FloatPrices (t : Topic) : Prop :=
  ∀ p, ∀ r ∈ t.log p, ∀ o, r.content = .order o →
    ∀ q, o.price = .finite q → PyFloat.IsBinary32 q

/-- The headers are read back whatever the error is, None included. -/
theorem decodeHeaders_written {topic failedAt : String} {p n retryCount : ℤ}
    {error : Option Exn} {headers : List (String × Bytes)}
    (h : buildHeaders topic p n error retryCount failedAt = .ok headers) :
    decodeHeaders (received headers) = [
      (hdrOriginalTopic, ofString topic),
      (hdrOriginalPartition, ofString (toString p)),
      (hdrOriginalOffset, ofString (toString n)),
      (hdrErrorClass, errorClassName error),
      (hdrErrorMessage, (errorText error).take 1000),
      (hdrRetryCount, ofString (toString retryCount)),
      (hdrFailedAt, ofString failedAt)] := by
  obtain ⟨cls, text, hcls, htext, rfl⟩ := buildHeaders_ok_iff.mp h
  rw [decodeHeaders_received (by exact allHeaders_nodup)]
  simp only [List.map_cons, List.map_nil, decodeReplace_encodeString,
    decodeReplace_encode hcls, decodeReplace_encode htext]

/-- A failure of the topic is told by every message that carries its record.  The
headers come back by the reader's own decoding, and the block below them because the
payload is JSON for the order. -/
theorem Handling.told {t : Topic} (ht : t.FloatPrices) {h : Handling}
    (hgenuine : h.Genuine t) {dlqTopic : String} {r : DlqRecord}
    (hpublished : h.PublishedAs dlqTopic r) {msg : DlqMessage} (hmsg : msg.Carries r) :
    h.Told t msg := by
  obtain ⟨hholds, hvalue⟩ := hgenuine
  obtain ⟨o, hr, horder, htopic⟩ := hholds.order hvalue
  obtain ⟨failedAt, hrecord⟩ := hpublished
  obtain ⟨headers, payload, hheaders, hpayload, rfl⟩ := buildRecord_ok_iff.mp hrecord
  have hdecoded : decodeHeaders msg.headers = h.headerTexts t failedAt := by
    rw [hmsg.headers, decodeHeaders_written hheaders, htopic]
    rfl
  have hloads : (msg.value.bind decode).bind PyJson.loads = some (orderDict o) := by
    rw [horder] at hpayload
    rw [hmsg.value]
    apply loads_orderPayload _ hpayload
    intro q hq
    exact (ht _ _ (List.mem_of_getElem? hr) o rfl q hq).isBinary64
  refine ⟨⟨failedAt, hdecoded⟩, ?_, o, hr, ?_⟩
  · intro index
    apply reportsAll_of_keys
    rw [hdecoded]
    rfl
  · intro index
    exact ⟨payloadBlock msg.value, formatMessage_eq index msg, loads_payloadBlock hloads⟩

/-! ## All reports -/

section Reports

variable {σ : Type} {setup : Setup σ} {effect₀ : σ} {t : Topic}

/-- A list of messages that carry the published copies is told in full, message by
message. -/
theorem told_all (ht : t.FloatPrices) {dlqTopic : String} {hs : List Handling}
    {ds : List DlqRecord} {msgs : List DlqMessage} (hgenuine : ∀ h ∈ hs, h.Genuine t)
    (hpublished : List.Forall₂ (Handling.PublishedAs dlqTopic) hs ds)
    (hmsgs : List.Forall₂ DlqMessage.Carries msgs ds) :
    List.Forall₂ (fun msg h => h.Told t msg) msgs hs := by
  induction hpublished generalizing msgs with
  | nil =>
      cases hmsgs
      exact .nil
  | cons hfirst _ ih =>
      cases hmsgs with
      | cons hcarries hrest =>
          rw [List.forall_mem_cons] at hgenuine
          exact .cons (Handling.told ht hgenuine.1 hfirst hcarries) (ih hgenuine.2 hrest)

/-- The messages that were read carry the first ones of the records. -/
theorem Reader.Reads.carries {args : Reader.Args} {polls seen : List Reader.Poll}
    {last : Option Reader.Poll} (h : Reader.Reads args polls seen last) {ds : List DlqRecord}
    (hpolls : List.Forall₂ DlqMessage.Carries (Reader.messages polls) ds) :
    List.Forall₂ DlqMessage.Carries (Reader.messages seen)
      (ds.take (Reader.messages seen).length) := by
  obtain ⟨rest, hsplit, -⟩ := h.split
  rw [hsplit, List.append_assoc, Reader.messages_append] at hpolls
  exact (List.forall₂_take_append _ _ _ hpolls.flip).flip

/-- **Every report is true, and none tells a failure again.**  In every state of every run,
whatever messages the reader gets that carry records of the DLQ producer, each at most
once: its reports tell failed outcomes of the run, and different ones. -/
theorem reports_tell_failures (ht : t.FloatPrices) {s : System σ} {ls : List Label}
    (hrun : Run (Step setup effect₀ t) (System.init effect₀) ls s)
    {ds : List DlqRecord} (hds : ds.Subperm s.delivery.all) {polls : List Reader.Poll}
    (hpolls : List.Forall₂ DlqMessage.Carries (Reader.messages polls) ds)
    (servers : String) (args : Reader.Args) :
    ∃ seen last hs, Reader.Reads args polls seen last ∧
      Reader.main setup.dlqTopic servers args polls =
        Reader.readingOf setup.dlqTopic servers seen last ∧
      hs.Subperm (failedOf s.outcomes) ∧
      List.Forall₂ (fun msg h => h.Told t msg) (Reader.messages seen) hs := by
  obtain ⟨seen, last, hreads, hmain⟩ :=
    Reader.main_eq setup.dlqTopic servers args polls
  obtain ⟨hs, ds', hsublist, hpublished, hall⟩ := (System.sourced_of_run hrun).failed
  have hseen := hreads.carries hpolls
  have hfirst : (ds.take (Reader.messages seen).length).Subperm ds' :=
    (List.take_sublist _ _).subperm.trans (hds.trans hall)
  obtain ⟨told, htold, hcopies⟩ := forall₂_subperm hpublished hfirst
  refine ⟨seen, last, told, hreads, hmain, htold.trans hsublist.subperm, ?_⟩
  refine told_all ht ?_ hcopies hseen
  intro h hh
  have hfailed : h ∈ failedOf s.outcomes := hsublist.subset (htold.subset hh)
  exact (System.genuine_of_run hrun).outcomes h (List.mem_filter.mp hfailed).1

/-- **No failure behind a committed position is missing.**  In every run whose commits,
where they follow a publish, find the published copy reported and not given up: if the
messages that the reader gets carry all acknowledged records, and none of them comes with
or after its last pass, then each record behind a committed position is a tombstone, was
aggregated by its last outcome, or is told by a report. -/
theorem committed_failures_are_told (ht : t.FloatPrices) {s : System σ} {ls : List Label}
    (hrun : Run (Guarded (Step setup effect₀ t) SettledBeforeCommit)
      (System.init effect₀) ls s)
    {ds : List DlqRecord} (hds : s.delivery.acked ⊆ ds) {polls : List Reader.Poll}
    (hpolls : List.Forall₂ DlqMessage.Carries (Reader.messages polls) ds)
    (servers : String) {args : Reader.Args}
    (hpatient : ∀ before poll after, polls = before ++ poll :: after →
      Reader.Ends args before poll → Reader.messages (poll :: after) = []) :
    ∃ seen last, Reader.main setup.dlqTopic servers args polls =
        Reader.readingOf setup.dlqTopic servers seen last ∧
      ∀ p n, n < s.consumer.offsets.committed p → ∃ r, (t.log p)[n]? = some r ∧
        (r.content = .tombstone ∨ ∃ o h, r.content = .order o ∧
          lastOutcome s.outcomes (p, n) = some h ∧ h.order = dictToOrder o ∧
          ((h.outcome.succeeded = true ∧ Deed.aggregated h.message ∈ s.history) ∨
            (h.outcome.succeeded = false ∧ ∃ msg ∈ Reader.messages seen, h.Told t msg))) := by
  obtain ⟨seen, last, hreads, hmain⟩ :=
    Reader.main_eq setup.dlqTopic servers args polls
  refine ⟨seen, last, hmain, ?_⟩
  intro p n hn
  obtain ⟨r, hr, htombstone | ⟨o, h, hcontent, hlast, -, hgenuine, horder, -, hend⟩⟩ :=
    System.accounted_of_run hrun hn
  · exact ⟨r, hr, Or.inl htombstone⟩
  · refine ⟨r, hr, Or.inr ⟨o, h, hcontent, hlast, horder, ?_⟩⟩
    refine hend.imp_right ?_
    rintro ⟨hfailed, d, hacked, hpublished⟩
    obtain ⟨msg, hmsg, hcarries⟩ : ∃ msg ∈ Reader.messages polls, msg.Carries d :=
      exists_of_mem_right hpolls (hds hacked)
    rw [← hreads.all_iff.mpr hpatient] at hmsg
    exact ⟨hfailed, msg, hmsg, Handling.told ht hgenuine hpublished hcarries⟩

end Reports

/-! ## The POISON order -/

theorem poisonTopic_floatPrices : poisonTopic.FloatPrices := by
  intro p r hr o ho q hq
  obtain ⟨q', hprice, hbinary⟩ := poisonTopic_replayable p r hr o ho
  rw [hq] at hprice
  obtain rfl := PyFloat.finite.inj hprice
  exact hbinary

/-- A message with a record, as the first one of a partition. -/
def DlqRecord.message (r : DlqRecord) : DlqMessage :=
  ⟨0, 0, r.key, some r.value, received r.headers⟩

theorem DlqRecord.message_carries (r : DlqRecord) : r.message.Carries r := ⟨rfl, rfl, rfl⟩

/-- The copy is read before the producer knows of its delivery. -/
theorem reports_tell_failures_poison : ∃ (s : System FailureSimulator) (r : DlqRecord),
    Run (Step sampleSetup {} poisonTopic) (System.init {})
      [.receive 0, .begin, .attempt, .branch, .produce ""] s ∧
    ∃ seen last hs, Reader.Reads {} [.silence, .message r.message] seen last ∧
      Reader.main "orders.DLQ" "localhost:9092" {} [.silence, .message r.message] =
        Reader.readingOf "orders.DLQ" "localhost:9092" seen last ∧
      hs.Subperm (failedOf s.outcomes) ∧
      List.Forall₂ (fun msg h => h.Told poisonTopic msg) (Reader.messages seen) hs := by
  obtain ⟨s, r, hrun, -, hdelivery, -⟩ := poison_run
  have hknown : [r].Subperm s.delivery.all := by
    rw [hdelivery]
    exact List.Subperm.refl _
  have hpolls : List.Forall₂ DlqMessage.Carries
      (Reader.messages [.silence, .message r.message]) [r] := .cons r.message_carries .nil
  exact ⟨s, r, hrun.unguard, reports_tell_failures poisonTopic_floatPrices hrun.unguard hknown
    hpolls "localhost:9092" {}⟩

/-- The copy is acknowledged before the commit, and read after a crash: the reader still
tells the failure that the position has passed. -/
theorem committed_failures_are_told_poison : ∃ (s : System FailureSimulator) (r : DlqRecord),
    Run (Guarded (Step sampleSetup {} poisonTopic) SettledBeforeCommit) (System.init {})
      [.receive 0, .begin, .attempt, .branch, .produce "", .report 0 .acknowledged,
        .count, .commit, .crash] s ∧
    s.consumer.offsets.committed 0 = 1 ∧
    ∃ seen last, Reader.main "orders.DLQ" "localhost:9092" {} [.message r.message, .silence] =
        Reader.readingOf "orders.DLQ" "localhost:9092" seen last ∧
      ∃ record, (poisonTopic.log 0)[0]? = some record ∧
        (record.content = .tombstone ∨ ∃ o h, record.content = .order o ∧
          lastOutcome s.outcomes (0, 0) = some h ∧ h.order = dictToOrder o ∧
          ((h.outcome.succeeded = true ∧ Deed.aggregated h.message ∈ s.history) ∨
            (h.outcome.succeeded = false ∧
              ∃ msg ∈ Reader.messages seen, h.Told poisonTopic msg))) := by
  obtain ⟨s, r, hrun, hcommitted, -, hdelivery⟩ := poison_acknowledged_run
  have hacked : s.delivery.acked ⊆ [r] := by rw [hdelivery]; exact List.Subset.refl _
  have hpolls : List.Forall₂ DlqMessage.Carries
      (Reader.messages [.message r.message, .silence]) [r] := .cons r.message_carries .nil
  have hpatient : ∀ before poll after,
      [.message r.message, .silence] = before ++ poll :: after →
      Reader.Ends {} before poll → Reader.messages (poll :: after) = [] := by
    intro before poll after hsplit hends
    match before with
    | [] =>
        obtain ⟨rfl, -⟩ := List.cons.inj hsplit
        cases hends
    | [first] =>
        obtain ⟨rfl, rfl⟩ := List.cons.inj (List.cons.inj hsplit).2
        rfl
    | first :: second :: before => simp at hsplit
  obtain ⟨seen, last, hmain, hall⟩ := committed_failures_are_told poisonTopic_floatPrices hrun
    hacked hpolls "localhost:9092" hpatient
  exact ⟨s, r, hrun, hcommitted, seen, last, hmain, hall 0 0 (by simp [hcommitted])⟩

end OrderPipeline
