import OrderPipeline.DlqReport

/-!
# The loop of the reader

`main` of `tools/read_dlq.py`.  What the outside contributes to a pass is what
`poll(1.0)` returns, or a KeyboardInterrupt during it or before the report on a message
is printed.

`Ends` says in terms of the passes so far which pass is the last one: an error, an
interrupt, or without `--follow` the last one of so many silent passes since the last
message (`Args.patience`).  `pass_reached` shows that the variables of the loop, the
rounded `idle` among them, keep just what this needs, and `reader_shows_log` says what a
whole run prints.
-/

namespace OrderPipeline

namespace Reader

open PyStr

/-! ## One pass -/

/-- The options of `parse_args`. -/
structure Args where
  follow : Bool := false
  timeout : PyFloat := .finite 5

/-- What a pass meets. -/
inductive Poll
  | silence
  | partitionEof
  | error (text : PyStr)
  | message (msg : DlqMessage)
  | interrupt
  | interruptPrint (msg : DlqMessage)

/-- The variables of the loop, and what has been printed. -/
structure State where
  count : ℕ := 0
  idle : ℚ := 0
  printed : List PyStr
  errors : List PyStr := []

/-- How a pass ends: at the next loop head, or past the loop. -/
inductive Pass
  | next (s : State)
  | left (s : State)

/-- The body of the `while` loop; the sum is rounded. -/
def pass (args : Args) (poll : Poll) (s : State) : Pass :=
  match poll with
  | .silence =>
    let s := { s with idle := PyFloat.nearestBinary64 (s.idle + 1) }
    if !args.follow && args.timeout.le (.finite s.idle) then .left s else .next s
  | .partitionEof => .next s
  | .error text => .left { s with errors := s.errors ++ [ofString "error: " ++ text] }
  | .message msg =>
    let s := { s with idle := 0, count := s.count + 1 }
    .next { s with printed := s.printed ++ [formatMessage payloadLines s.count msg] }
  | .interrupt => .left s
  | .interruptPrint _ => .left { s with idle := 0, count := s.count + 1 }

/-- The passes over what `poll` returns. -/
def loop (args : Args) : List Poll → State → Pass
  | [], s => .next s
  | poll :: polls, s =>
    match pass args poll s with
    | .next s => loop args polls s
    | .left s => .left s

/-! ## The whole run -/

/-- The line above the reports. -/
def heading (topic servers : String) : PyStr :=
  ofString ("Reading " ++ topic ++ " from " ++ servers ++ " ...")

/-- The lines of the `finally` block. -/
def footer (topic : String) (count : ℕ) : List PyStr :=
  [ofString "\n" ++ rule '=' 72,
    ofString ("TOTAL: " ++ toString count ++ " message(s) in " ++ topic), rule '=' 72]

/-- What has been printed on the two streams, and the status if `main` has returned. -/
structure Reading where
  printed : List PyStr
  errors : List PyStr
  status : Option ℤ

/-- `main`. -/
def main (topic servers : String) (args : Args) (polls : List Poll) : Reading :=
  match loop args polls { printed := [heading topic servers] } with
  | .next s => ⟨s.printed, s.errors, none⟩
  | .left s => ⟨s.printed ++ footer topic s.count, s.errors, some 0⟩

/-! ## What the passes so far amount to -/

/-- The message that a pass receives. -/
def Poll.message? : Poll → Option DlqMessage
  | .message msg => some msg
  | .interruptPrint msg => some msg
  | _ => none

def Poll.isSilence : Poll → Bool
  | .silence => true
  | _ => false

/-- The messages of some passes, in the order of the passes. -/
def messages (polls : List Poll) : List DlqMessage := polls.filterMap Poll.message?

/-- The silent passes since the last message. -/
def gap (polls : List Poll) : ℕ :=
  (polls.reverse.takeWhile fun poll => poll.message?.isNone).countP Poll.isSilence

/-- The reports on some messages, numbered from 1. -/
def reports (msgs : List DlqMessage) : List PyStr :=
  msgs.mapIdx fun i msg => formatMessage payloadLines (i + 1) msg

/-- How many silent passes in a row the reader waits for; it may wait forever. -/
def Args.patience (args : Args) : Option ℕ :=
  if args.follow then none
  else
    match args.timeout with
    | .finite q => if q ≤ 2 ^ 53 then some (Max.max 1 ⌈q⌉₊) else none
    | .negInf => some 1
    | _ => none

/-- After the passes `seen` this one is the last. -/
def Ends (args : Args) (seen : List Poll) : Poll → Prop
  | .silence => ∃ limit, args.patience = some limit ∧ limit ≤ gap seen + 1
  | .error _ => True
  | .interrupt => True
  | .interruptPrint _ => True
  | _ => False

/-- None of these passes is the last one. -/
def GoesOn (args : Args) (seen : List Poll) : Prop :=
  ∀ before poll after, seen = before ++ poll :: after → ¬Ends args before poll

/-- A run over `polls` has come past `seen`, and has met its last pass if there is one. -/
structure Reads (args : Args) (polls seen : List Poll) (last : Option Poll) : Prop where
  split : ∃ rest, polls = seen ++ last.toList ++ rest ∧ (last = none → rest = [])
  goesOn : GoesOn args seen
  ends : ∀ poll, last = some poll → Ends args seen poll

/-- A pass that does not end the loop is one more that goes on. -/
theorem GoesOn.snoc {args : Args} {seen : List Poll} {poll : Poll} (h : GoesOn args seen)
    (hpoll : ¬Ends args seen poll) : GoesOn args (seen ++ [poll]) := by
  intro before other after hsplit
  induction after using List.reverseRecOn with
  | nil =>
      obtain ⟨rfl, hlast⟩ := List.append_inj' hsplit rfl
      rwa [← List.head_eq_of_cons_eq hlast]
  | append_singleton after final _ =>
      rw [← List.cons_append, ← List.append_assoc] at hsplit
      exact h before other after (List.append_inj' hsplit rfl).1

/-- A pass without a message adds to the gap if it is silent. -/
theorem gap_snoc {poll : Poll} (h : poll.message? = none) (polls : List Poll) :
    gap (polls ++ [poll]) = gap polls + if poll.isSilence then 1 else 0 := by
  simp [gap, h, List.countP_cons]

/-- A message ends the silence. -/
theorem gap_message (polls : List Poll) (msg : DlqMessage) :
    gap (polls ++ [.message msg]) = 0 := by
  have hmessage : (Poll.message msg).message? = some msg := rfl
  simp [gap, hmessage]

/-- One more pass brings at most one more message. -/
theorem messages_snoc (polls : List Poll) (poll : Poll) :
    messages (polls ++ [poll]) = messages polls ++ poll.message?.toList := by
  unfold messages
  cases hmessage : poll.message? <;> simp [hmessage]

/-- The report of a further message is numbered next, and the reports before it stay. -/
theorem reports_snoc (msgs : List DlqMessage) (msg : DlqMessage) :
    reports (msgs ++ [msg]) =
      reports msgs ++ [formatMessage payloadLines (msgs.length + 1) msg] := by
  simp [reports]

/-- The rounded count of the silent passes reaches the timeout just when their number
reaches the patience. -/
theorem givesUp_iff (args : Args) (n : ℕ) :
    (!args.follow && args.timeout.le (.finite (Min.min (n + 1) (2 ^ 53) : ℕ))) = true ↔
      ∃ limit, args.patience = some limit ∧ limit ≤ n + 1 := by
  obtain ⟨follow, timeout⟩ := args
  cases follow with
  | true => simp [Args.patience]
  | false =>
      cases timeout with
      | finite q =>
          have hmin : q ≤ (Min.min (n + 1) (2 ^ 53) : ℕ) ↔ q ≤ (n + 1 : ℕ) ∧ q ≤ 2 ^ 53 := by
            rw [Nat.cast_min, le_min_iff]
            norm_num
          have hle : (!false && (PyFloat.finite q).le (.finite (Min.min (n + 1) (2 ^ 53) : ℕ))) =
              true ↔ q ≤ (n + 1 : ℕ) ∧ q ≤ 2 ^ 53 := by
            rw [← hmin]
            exact decide_eq_true_iff
          rw [hle]
          by_cases hq : q ≤ 2 ^ 53
          · have hceil : ⌈q⌉₊ ≤ n + 1 ↔ q ≤ (n + 1 : ℕ) := Nat.ceil_le
            simp [Args.patience, hq, hceil]
          · simp [Args.patience, hq]
      | posInf => simp [Args.patience, PyFloat.le]
      | negInf => simp [Args.patience, PyFloat.le]
      | nan => simp [Args.patience, PyFloat.le]

/-! ## What a run prints -/

/-- What an error is reported as. -/
def Poll.errorLines : Poll → List PyStr
  | .error text => [ofString "error: " ++ text]
  | _ => []

section Run

variable (topic servers : String) (args : Args)

/-- The variables after the passes `seen`. -/
def reached (seen : List Poll) : State where
  count := (messages seen).length
  idle := (Min.min (gap seen) (2 ^ 53) : ℕ)
  printed := heading topic servers :: reports (messages seen)

/-- The variables past the loop: the last pass prints no report, and may count one. -/
def leftWith (seen : List Poll) (poll : Poll) (idle : ℚ) : State :=
  { reached topic servers seen with
    count := (messages (seen ++ [poll])).length
    idle := idle
    errors := poll.errorLines }

variable {topic servers args}

/-- **Step lemma.** A pass that goes on leads to the state reached with one pass more; a
pass that ends leaves the loop with what it has printed. -/
theorem pass_reached (seen : List Poll) (poll : Poll) :
    (¬Ends args seen poll ∧ pass args poll (reached topic servers seen) =
        .next (reached topic servers (seen ++ [poll]))) ∨
      (Ends args seen poll ∧ ∃ idle, pass args poll (reached topic servers seen) =
        .left (leftWith topic servers seen poll idle)) := by
  cases poll with
  | silence =>
      have hidle := PyFloat.nearestBinary64_count (gap seen)
      have hgives := givesUp_iff args (gap seen)
      have hmessages : messages (seen ++ [Poll.silence]) = messages seen := by
        simp [messages_snoc, Poll.message?]
      unfold pass
      simp only [reached, hidle]
      by_cases hends : Ends args seen .silence
      · refine Or.inr ⟨hends, (Min.min (gap seen + 1) (2 ^ 53) : ℕ), ?_⟩
        rw [if_pos (hgives.mpr hends), leftWith, hmessages]
        rfl
      · refine Or.inl ⟨hends, ?_⟩
        rw [if_neg (mt hgives.mp hends), hmessages, gap_snoc rfl]
        rfl
  | partitionEof =>
      have hgap : gap (seen ++ [Poll.partitionEof]) = gap seen := gap_snoc rfl seen
      refine Or.inl ⟨not_false, ?_⟩
      simp [pass, reached, hgap, messages_snoc, Poll.message?]
  | error text =>
      refine Or.inr ⟨trivial, (reached topic servers seen).idle, ?_⟩
      simp [pass, leftWith, reached, messages_snoc, Poll.message?, Poll.errorLines]
  | message msg =>
      refine Or.inl ⟨not_false, ?_⟩
      simp [pass, reached, gap_message, messages_snoc, Poll.message?, reports_snoc]
  | interrupt =>
      refine Or.inr ⟨trivial, (reached topic servers seen).idle, ?_⟩
      simp [pass, leftWith, reached, messages_snoc, Poll.message?, Poll.errorLines]
  | interruptPrint msg =>
      refine Or.inr ⟨trivial, 0, ?_⟩
      simp [pass, leftWith, reached, messages_snoc, Poll.message?, Poll.errorLines]

/-- **Run lemma.** By induction on the passes: the loop goes on up to the first one that
ends it, or through all of them. -/
theorem loop_reached (polls : List Poll) {seen : List Poll} (h : GoesOn args seen) :
    ∃ seen' last, Reads args (seen ++ polls) seen' last ∧
      ((last = none ∧ loop args polls (reached topic servers seen) =
          .next (reached topic servers seen')) ∨
        ∃ poll idle, last = some poll ∧ loop args polls (reached topic servers seen) =
          .left (leftWith topic servers seen' poll idle)) := by
  induction polls generalizing seen with
  | nil =>
      refine ⟨seen, none, ⟨⟨[], by simp⟩, h, by simp⟩, Or.inl ⟨rfl, rfl⟩⟩
  | cons poll polls ih =>
      have hsplit : seen ++ poll :: polls = seen ++ [poll] ++ polls := by simp
      unfold loop
      rcases @pass_reached topic servers args seen poll with
        ⟨hgoesOn, hpass⟩ | ⟨hends, idle, hpass⟩
      · rw [hpass, hsplit]
        exact ih (h.snoc hgoesOn)
      · rw [hpass]
        refine ⟨seen, some poll, ⟨⟨polls, by simp⟩, h, ?_⟩, Or.inr ⟨poll, idle, rfl, rfl⟩⟩
        rintro _ ⟨rfl⟩
        exact hends

end Run

/-- What a run prints that has come past `seen`, and what it returns. -/
def readingOf (topic servers : String) (seen : List Poll) (last : Option Poll) : Reading :=
  let printed := heading topic servers :: reports (messages seen)
  match last with
  | none => ⟨printed, [], none⟩
  | some poll =>
    ⟨printed ++ footer topic (messages (seen ++ [poll])).length, poll.errorLines, some 0⟩

/-- The loop lemma: `main` comes past some passes, meets the last one if there is one,
and returns what `readingOf` says of these. -/
theorem main_eq (topic servers : String) (args : Args) (polls : List Poll) :
    ∃ seen last, Reads args polls seen last ∧
      main topic servers args polls = readingOf topic servers seen last := by
  have hstart : GoesOn args [] := by
    intro before poll after hsplit
    simp at hsplit
  have hfirst : ({ printed := [heading topic servers] } : State) =
      reached topic servers [] := by
    simp [reached, messages, reports, gap]
  obtain ⟨seen, last, hreads, ⟨rfl, hloop⟩ | ⟨poll, idle, rfl, hloop⟩⟩ :=
    @loop_reached topic servers args polls [] hstart
  · refine ⟨seen, none, hreads, ?_⟩
    unfold main
    rw [hfirst, hloop]
    rfl
  · refine ⟨seen, some poll, hreads, ?_⟩
    unfold main
    rw [hfirst, hloop]
    rfl

/-- The messages of two runs of passes, one after the other. -/
theorem messages_append (polls polls' : List Poll) :
    messages (polls ++ polls') = messages polls ++ messages polls' := List.filterMap_append

/-- No message is left unread exactly when none comes with or after a last pass,
wherever that pass stands. -/
theorem Reads.all_iff {args : Args} {polls seen : List Poll} {last : Option Poll}
    (h : Reads args polls seen last) :
    messages seen = messages polls ↔ ∀ before poll after, polls = before ++ poll :: after →
      Ends args before poll → messages (poll :: after) = [] := by
  obtain ⟨⟨rest, hsplit, hrest⟩, hgoesOn, hends⟩ := h
  cases last with
  | none =>
      have hall : polls = seen := by rw [hsplit, hrest rfl]; simp
      subst hall
      refine iff_of_true rfl ?_
      intro before poll after hpolls hend
      exact absurd hend (hgoesOn before poll after hpolls)
  | some poll =>
      have hall : polls = seen ++ poll :: rest := by simpa using hsplit
      subst hall
      rw [messages_append]
      constructor
      · intro hmessages before other after hpolls hend
        have hnone : messages (poll :: rest) = [] := by simpa using hmessages
        rcases List.append_eq_append_iff.mp hpolls with
          ⟨more, hbefore, hlater⟩ | ⟨more, hseen, hearlier⟩
        · rw [hlater, messages_append, List.append_eq_nil_iff] at hnone
          exact hnone.2
        · -- the other one is not before the last pass
          cases more with
          | nil =>
              rw [List.nil_append] at hearlier
              rwa [hearlier]
          | cons first more =>
              obtain ⟨rfl, -⟩ := List.cons.inj hearlier
              exact absurd hend (hgoesOn before other more hseen)
      · intro h
        rw [h seen poll rest rfl (hends poll rfl), List.append_nil]

end Reader

end OrderPipeline
