import PageServer.Http.Decoder
import PageServer.Proofs.Bytes

/-!
# The decoder on bytes that go on

What a decoder does with bytes it also does, up to that point, when more bytes
follow. A step that gets on or fails leaves the new bytes behind what it leaves
anyway; a step that waits is made up for later, from the decoder and the bytes
it left (`Step.resume`, `Decoder.step_append`). The same then holds of feeding
(`Fed.resume`, `Decoder.feed_append`), by induction on the steps.

Feeding is counted in rounds, but never runs out of them: every step that gets
on makes the decoder's *distance* to the end smaller (`Decoder.distance`), so
feeding satisfies the recursion without rounds (`Decoder.feed_eq`).
-/

namespace PageServer.Http

namespace Decoder

variable {d d' : Decoder} {bytes rest line : Bytes}

/-! ### Lines -/

theorem eq_of_cutLine (h : cutLine bytes = some (line, rest)) :
    bytes = line ++ 13 :: 10 :: rest := by
  unfold cutLine at h
  split at h
  · cases h
  · next i hi =>
    cases h
    conv => lhs; rw [Bytes.eq_of_find? hi]
    simp

/-- A line that has ended stays the same when more bytes follow. -/
theorem cutLine_append (h : cutLine bytes = some (line, rest)) (more : Bytes) :
    cutLine (bytes ++ more) = some (line, rest ++ more) := by
  unfold cutLine at h
  split at h
  · cases h
  · next i hi =>
    cases h
    have hle : i + 2 ≤ bytes.length := by
      have hlen := congrArg List.length (Bytes.eq_of_find? hi)
      have hat := (Bytes.find?_eq_some_iff.1 hi).2.1.length_le
      simp only [List.length_drop, List.length_cons, List.length_nil] at hat
      omega
    simp only [cutLine, Bytes.find?_append hi more]
    rw [List.take_append_of_le_length (by omega), List.drop_append_of_le_length hle]

/-- A line that ends only in the new bytes is as long as the old ones, up to the
    first byte of its end. -/
theorem length_le_of_cutLine_append {more : Bytes} (h : cutLine bytes = none)
    (h' : cutLine (bytes ++ more) = some (line, rest)) : bytes.length ≤ line.length + 1 := by
  unfold cutLine at h h'
  split at h
  · next hnone =>
    split at h'
    · cases h'
    · next i hi =>
      cases h'
      have hlt := Bytes.length_lt_of_find?_append hnone hi
      have hle := (Bytes.find?_eq_some_iff.1 hi).1
      simp only [List.length_cons, List.length_nil] at hlt
      rw [List.length_take]
      omega
  · cases h

/-! ### Steps -/

/-- A step on bytes that go on with `more`, given the step on the bytes alone. -/
def Step.resume (more : Bytes) : Step → Step
  | .wait d rest => d.step (rest ++ more)
  | .fail d rest => .fail d (rest ++ more)
  | .go d rest => .go d (rest ++ more)

theorem Step.resume_ofResult (more rest : Bytes) (r : Except (DecodeError × Decoder) Decoder) :
    (Step.ofResult rest r).resume more = Step.ofResult (rest ++ more) r := by
  cases r <;> rfl

theorem stepHeaderLine_append (hstep : ∀ b, d.step b = d.stepHeaderLine b) (more : Bytes) :
    d.stepHeaderLine (bytes ++ more) = (d.stepHeaderLine bytes).resume more := by
  cases hcut : cutLine bytes with
  | some cut =>
    obtain ⟨line, rest⟩ := cut
    simp only [stepHeaderLine, hcut, cutLine_append hcut more]
    split
    · -- Too long a line is not taken off.
      rw [Step.resume_ofResult]
    · rw [Step.resume_ofResult]
  | none =>
    by_cases hlimit : d.limit < d.counted + bytes.length
    · -- Already too long: a line that ends later is longer still.
      have hleft : d.stepHeaderLine bytes =
          .ofResult bytes (.error (.headerTooLong d.limit, d)) := by
        simp only [stepHeaderLine, hcut, hlimit, if_true]
      rw [hleft, Step.resume_ofResult]
      cases hcut' : cutLine (bytes ++ more) with
      | none =>
        simp only [stepHeaderLine, hcut', List.length_append]
        rw [if_pos (by omega)]
      | some cut =>
        obtain ⟨line, rest⟩ := cut
        have hlen := length_le_of_cutLine_append hcut hcut'
        simp only [stepHeaderLine, hcut']
        rw [if_pos (by omega)]
    · have hleft : d.stepHeaderLine bytes = .wait d bytes := by
        simp only [stepHeaderLine, hcut, hlimit, if_false]
      rw [hleft, Step.resume, hstep]

theorem stepChunkSize_append (hstep : ∀ b, d.step b = d.stepChunkSize b) (more : Bytes) :
    d.stepChunkSize (bytes ++ more) = (d.stepChunkSize bytes).resume more := by
  cases hcut : cutLine bytes with
  | some cut =>
    obtain ⟨line, rest⟩ := cut
    simp only [stepChunkSize, hcut, cutLine_append hcut more, Step.resume_ofResult]
  | none =>
    have hleft : d.stepChunkSize bytes = .wait d bytes := by simp only [stepChunkSize, hcut]
    rw [hleft, Step.resume, hstep]

theorem stepChunk_append {size : Nat} (hstep : ∀ b, d.step b = d.stepChunk size b) (more : Bytes) :
    d.stepChunk size (bytes ++ more) = (d.stepChunk size bytes).resume more := by
  by_cases hlen : bytes.length < size + 2
  · have hleft : d.stepChunk size bytes = .wait d bytes := by simp only [stepChunk, hlen, if_true]
    rw [hleft, Step.resume, hstep]
  · have hlen' : ¬ (bytes ++ more).length < size + 2 := by rw [List.length_append]; omega
    have htake : (bytes ++ more).take size = bytes.take size :=
      List.take_append_of_le_length (by omega)
    have hdrop : (bytes ++ more).drop size = bytes.drop size ++ more :=
      List.drop_append_of_le_length (by omega)
    simp only [stepChunk, hlen, hlen', if_false, htake, hdrop]
    -- The two bytes after the chunk are there, whatever they are.
    obtain ⟨x, y, tail, htail⟩ : ∃ x y tail, bytes.drop size = x :: y :: tail := by
      have hdl : 2 ≤ (bytes.drop size).length := by rw [List.length_drop]; omega
      match bytes.drop size, hdl with
      | x :: y :: tail, _ => exact ⟨x, y, tail, rfl⟩
    rw [htail]
    by_cases hend : x = 13 ∧ y = 10
    · obtain ⟨rfl, rfl⟩ := hend
      rfl
    · split
      · next heq =>
        simp only [List.cons_append, List.cons.injEq] at heq
        exact absurd ⟨heq.1, heq.2.1⟩ hend
      · split
        · next heq =>
          simp only [List.cons.injEq] at heq
          exact absurd ⟨heq.1, heq.2.1⟩ hend
        · rw [Step.resume_ofResult]

theorem stepBody_append (remaining : Nat) (more : Bytes) :
    d.stepBody remaining (bytes ++ more) = (d.stepBody remaining bytes).resume more := by
  by_cases hlen : bytes.length < remaining
  · -- The part of the body that is there is taken now, the rest with the new bytes.
    have hleft : d.stepBody remaining bytes =
        .wait { d.appendBody bytes with stage := .body (remaining - bytes.length) } [] := by
      simp only [stepBody, hlen, if_true, List.take_of_length_le (Nat.le_of_lt hlen),
        List.drop_of_length_le (Nat.le_of_lt hlen)]
    have htake : (bytes ++ more).take remaining =
        bytes ++ more.take (remaining - bytes.length) := by
      rw [List.take_append, List.take_of_length_le (Nat.le_of_lt hlen)]
    have hdrop : (bytes ++ more).drop remaining = more.drop (remaining - bytes.length) := by
      rw [List.drop_append, List.drop_of_length_le (Nat.le_of_lt hlen), List.nil_append]
    rw [hleft, Step.resume, List.nil_append]
    simp only [step, stepBody, appendBody, htake, hdrop, List.append_assoc, List.length_append]
    by_cases hmore : more.length < remaining - bytes.length
    · rw [if_pos (by omega), if_pos hmore, Nat.sub_sub]
    · rw [if_neg (by omega), if_neg hmore]
  · have hlen' : ¬ (bytes ++ more).length < remaining := by rw [List.length_append]; omega
    simp only [stepBody, hlen, hlen', if_false, Step.resume]
    rw [List.take_append_of_le_length (by omega), List.drop_append_of_le_length (by omega)]

/-- A step on bytes that go on is the step on the bytes alone, resumed. -/
theorem step_append (d : Decoder) (bytes more : Bytes) :
    d.step (bytes ++ more) = (d.step bytes).resume more := by
  rcases hstage : d.stage with _ | _ | remaining | _ | size | _ | _
  -- A step that waits leaves the stage as it is, but in a body, which is counted down.
  case requestLine | fields | trailers =>
    have hstep (b : Bytes) : d.step b = d.stepHeaderLine b := by simp only [step, hstage]
    rw [hstep, hstep, stepHeaderLine_append hstep]
  case chunkSize =>
    have hstep (b : Bytes) : d.step b = d.stepChunkSize b := by simp only [step, hstage]
    rw [hstep, hstep, stepChunkSize_append hstep]
  case chunk =>
    have hstep (b : Bytes) : d.step b = d.stepChunk size b := by simp only [step, hstage]
    rw [hstep, hstep, stepChunk_append hstep]
  case body =>
    have hstep (b : Bytes) : d.step b = d.stepBody remaining b := by simp only [step, hstage]
    rw [hstep, hstep, stepBody_append]
  case complete =>
    have hstep (b : Bytes) : d.step b = .wait d b := by simp only [step, hstage]
    rw [hstep, hstep, Step.resume, hstep]

/-! ### What a step can do -/

/-- A line that is taken in changes the request and the stage, and nothing else. -/
theorem onRequestLine_frame (h : d.onRequestLine line = .ok d') :
    ∃ request stage, d' = { d with request, stage } := by
  simp only [onRequestLine] at h
  split at h
  · cases h
  · split at h
    · cases h
    · split at h
      · cases h
      · cases h
      · split at h
        · cases h
        · cases h
          exact ⟨_, _, rfl⟩

theorem onField_frame (h : d.onField line = .ok d') :
    ∃ request stage, d' = { d with request, stage } := by
  simp only [onField] at h
  split at h <;> cases h
  exact ⟨_, _, rfl⟩

theorem onFieldsEnd_frame (h : d.onFieldsEnd = .ok d') :
    ∃ request stage, d' = { d with request, stage } := by
  simp only [onFieldsEnd] at h
  split at h
  · cases h
    exact ⟨_, _, rfl⟩
  · split at h
    · split at h <;> cases h
      · exact ⟨_, _, rfl⟩
      · exact ⟨_, _, rfl⟩
    · cases h
      exact ⟨_, _, rfl⟩

theorem onChunkSize_frame (h : d.onChunkSize line = .ok d') :
    ∃ request stage, d' = { d with request, stage } := by
  simp only [onChunkSize] at h
  split at h
  · cases h
  · cases h
    exact ⟨_, _, rfl⟩
  · split at h <;> cases h
    exact ⟨_, _, rfl⟩

theorem onHeaderLine_frame (h : d.onHeaderLine line = .ok d') :
    ∃ request stage, d' = { d with request, stage } := by
  simp only [onHeaderLine] at h
  split at h
  · exact onRequestLine_frame h
  · exact onFieldsEnd_frame h
  · exact onField_frame h
  · cases h
    exact ⟨_, _, rfl⟩
  · cases h
    exact ⟨_, _, rfl⟩

theorem Step.ofResult_eq_go {r : Except (DecodeError × Decoder) Decoder}
    (h : Step.ofResult bytes r = .go d' rest) : r = .ok d' ∧ rest = bytes := by
  cases r with
  | ok d => cases h; exact ⟨rfl, rfl⟩
  | error e => cases h

theorem Step.ofResult_ne_wait {r : Except (DecodeError × Decoder) Decoder} :
    Step.ofResult bytes r ≠ .wait d' rest := by
  cases r <;> exact Step.noConfusion

theorem Step.error_of_ofResult {r : Except (DecodeError × Decoder) Decoder}
    (h : Step.ofResult bytes r = .fail d' rest) : ∃ e, d'.error = some e := by
  cases r with
  | ok d => cases h
  | error e => cases h; exact ⟨_, rfl⟩

/-- What a step that gets on takes off the bytes, and what it leaves alone in
    the decoder. Only a body of no bytes is gone through without taking one. -/
structure Took (d : Decoder) (bytes : Bytes) (d' : Decoder) (rest : Bytes) : Prop where
  limit_eq : d'.limit = d.limit
  error_eq : d'.error = d.error
  eq_append : ∃ taken, bytes = taken ++ rest ∧
    (taken = [] → d.stage = .body 0 ∧ d'.stage = .complete)

theorem stepHeaderLine_go (h : d.stepHeaderLine bytes = .go d' rest) : Took d bytes d' rest := by
  simp only [stepHeaderLine] at h
  split at h
  · split at h <;> cases h
  · next line rest' hcut =>
    split at h
    · cases h
    · obtain ⟨hr, rfl⟩ := Step.ofResult_eq_go h
      obtain ⟨request, stage, rfl⟩ := onHeaderLine_frame hr
      exact ⟨rfl, rfl, line ++ [13, 10], by simp [eq_of_cutLine hcut], by simp⟩

theorem stepChunkSize_go (h : d.stepChunkSize bytes = .go d' rest) : Took d bytes d' rest := by
  simp only [stepChunkSize] at h
  split at h
  · cases h
  · next line rest' hcut =>
    obtain ⟨hr, rfl⟩ := Step.ofResult_eq_go h
    obtain ⟨request, stage, rfl⟩ := onChunkSize_frame hr
    exact ⟨rfl, rfl, line ++ [13, 10], by simp [eq_of_cutLine hcut], by simp⟩

theorem stepChunk_go {size : Nat} (h : d.stepChunk size bytes = .go d' rest) :
    Took d bytes d' rest := by
  simp only [stepChunk] at h
  split at h
  · cases h
  · split at h
    · next rest' heq =>
      cases h
      refine ⟨rfl, rfl, bytes.take size ++ [13, 10], ?_, by simp⟩
      rw [List.append_assoc]
      conv => lhs; rw [← List.take_append_drop size bytes, heq]
      rfl
    · cases h

theorem stepBody_go {remaining : Nat} (hstage : d.stage = .body remaining)
    (h : d.stepBody remaining bytes = .go d' rest) : Took d bytes d' rest := by
  simp only [stepBody] at h
  split at h
  · cases h
  · next hlen =>
    cases h
    -- Nothing was taken only if nothing was to be taken.
    refine ⟨rfl, rfl, bytes.take remaining, (List.take_append_drop _ _).symm, fun hnil => ?_⟩
    have : remaining = 0 := by
      have := congrArg List.length hnil
      rw [List.length_take, List.length_nil] at this
      omega
    exact ⟨by rw [hstage, this], rfl⟩

theorem step_go (h : d.step bytes = .go d' rest) : Took d bytes d' rest := by
  unfold step at h
  split at h
  · exact stepHeaderLine_go h
  · exact stepHeaderLine_go h
  · exact stepHeaderLine_go h
  · exact stepChunkSize_go h
  · exact stepChunk_go h
  · next hstage => exact stepBody_go hstage h
  · cases h

/-- A step that fails leaves its error in the decoder. -/
theorem step_fail (h : d.step bytes = .fail d' rest) : ∃ e, d'.error = some e := by
  unfold step at h
  split at h
  case h_1 | h_2 | h_3 =>
    simp only [stepHeaderLine] at h
    split at h
    · split at h
      · exact Step.error_of_ofResult h
      · cases h
    · split at h <;> exact Step.error_of_ofResult h
  case h_4 =>
    simp only [stepChunkSize] at h
    split at h
    · cases h
    · exact Step.error_of_ofResult h
  case h_5 =>
    simp only [stepChunk] at h
    split at h
    · cases h
    · split at h
      · cases h
      · exact Step.error_of_ofResult h
  case h_6 =>
    simp only [stepBody] at h
    split at h <;> cases h
  case h_7 => cases h

/-- A decoder that waits is as it was, but for a body of which a part has come. -/
theorem step_wait (h : d.step bytes = .wait d' rest) :
    (d' = d ∧ rest = bytes) ∨
      ∃ remaining, d.stage = .body remaining ∧ bytes.length < remaining ∧ rest = [] ∧
        d' = { d.appendBody bytes with stage := .body (remaining - bytes.length) } := by
  unfold step at h
  split at h
  -- A line is waited for as a whole, and so is a chunk with its end.
  case h_1 | h_2 | h_3 =>
    simp only [stepHeaderLine] at h
    split at h
    · split at h
      · exact absurd h Step.ofResult_ne_wait
      · cases h; exact .inl ⟨rfl, rfl⟩
    · split at h <;> exact absurd h Step.ofResult_ne_wait
  case h_4 =>
    simp only [stepChunkSize] at h
    split at h
    · cases h; exact .inl ⟨rfl, rfl⟩
    · exact absurd h Step.ofResult_ne_wait
  case h_5 =>
    simp only [stepChunk] at h
    split at h
    · cases h; exact .inl ⟨rfl, rfl⟩
    · split at h
      · cases h
      · exact absurd h Step.ofResult_ne_wait
  case h_6 =>
    next remaining hstage =>
    simp only [stepBody] at h
    split at h
    · next hlen =>
      cases h
      refine .inr ⟨remaining, hstage, hlen, List.drop_of_length_le (Nat.le_of_lt hlen), ?_⟩
      rw [List.take_of_length_le (Nat.le_of_lt hlen)]
    · cases h
  case h_7 => cases h; exact .inl ⟨rfl, rfl⟩

/-! ### Feeding -/

/-- How many steps the decoder can still get on: one for each byte, and one to
    the end of the request. -/
def distance (d : Decoder) (bytes : Bytes) : Nat :=
  bytes.length + if d.stage = .complete then 0 else 1

theorem distance_lt_of_go (hstage : d.stage ≠ .complete) (h : d.step bytes = .go d' rest) :
    d'.distance rest < d.distance bytes := by
  obtain ⟨taken, rfl, hnil⟩ := (step_go h).eq_append
  simp only [distance, hstage, if_false, List.length_append]
  cases taken with
  | nil =>
    rw [if_pos (hnil rfl).2, List.length_nil]
    omega
  | cons b taken =>
    rw [List.length_cons]
    split <;> omega

/-- With as many rounds as the decoder can get on, one round more makes no
    difference. -/
theorem feedFor_succ {n : Nat} (h : d.distance bytes ≤ n) :
    feedFor (n + 1) d bytes = feedFor n d bytes := by
  induction n generalizing d bytes with
  | zero =>
    have hstage : d.stage = .complete := by
      by_contra hne
      rw [distance, if_neg hne] at h
      omega
    simp only [feedFor, hstage, if_true]
  | succ n ih =>
    rw [feedFor, feedFor]
    split
    · rfl
    · next hstage =>
      split
      · rfl
      · rfl
      · next d' rest hgo =>
        exact ih (Nat.le_of_lt_succ ((distance_lt_of_go hstage hgo).trans_le h))

theorem feedFor_of_distance_le {n m : Nat} (h : d.distance bytes ≤ n) (hnm : n ≤ m) :
    feedFor m d bytes = feedFor n d bytes := by
  induction m, hnm using Nat.le_induction with
  | base => rfl
  | succ m hnm ih => rw [feedFor_succ (h.trans hnm), ih]

theorem feed_of_error {e : DecodeError} (h : d.error = some e) :
    d.feed bytes = ⟨.error, d, bytes⟩ := by
  simp only [feed, h]

/-- Feeding takes as many rounds as it likes, if they are enough. -/
theorem feed_eq_feedFor {n : Nat} (h : d.error = none) (hn : d.distance bytes ≤ n) :
    d.feed bytes = feedFor n d bytes := by
  have hle : d.distance bytes ≤ bytes.length + 1 := by
    rw [distance]
    split <;> omega
  have hfeed : d.feed bytes = feedFor (bytes.length + 1) d bytes := by simp only [feed, h]
  rw [hfeed, feedFor_of_distance_le le_rfl hle, feedFor_of_distance_le le_rfl hn]

/-- Feeding without rounds: step by step, until the request is complete or a
    step does not get on. -/
theorem feed_eq (h : d.error = none) :
    d.feed bytes =
      if d.stage = .complete then ⟨.complete, d, bytes⟩
      else
        match d.step bytes with
        | .wait d' rest => ⟨.needMore, d', rest⟩
        | .fail d' rest => ⟨.error, d', rest⟩
        | .go d' rest => d'.feed rest := by
  rw [feed_eq_feedFor h (Nat.le_succ _), feedFor]
  split
  · rfl
  · next hstage =>
    cases hstep : d.step bytes with
    | wait d' rest => rfl
    | fail d' rest => rfl
    | go d' rest =>
      have herror : d'.error = none := (step_go hstep).error_eq.trans h
      exact (feed_eq_feedFor herror (distance_lt_of_go hstage hstep).le).symm

/-- Induction on the steps of feeding: a property holds of what feeding comes to
    if it does where feeding ends, and is passed back over each step that gets
    on. -/
theorem feed_induction {motive : Decoder → Bytes → Prop}
    (failed : ∀ {d bytes} e, d.error = some e → d.feed bytes = ⟨.error, d, bytes⟩ → motive d bytes)
    (complete : ∀ {d bytes}, d.error = none → d.stage = .complete →
      d.feed bytes = ⟨.complete, d, bytes⟩ → motive d bytes)
    (wait : ∀ {d bytes d' rest}, d.error = none → d.stage ≠ .complete →
      d.step bytes = .wait d' rest → d.feed bytes = ⟨.needMore, d', rest⟩ → motive d bytes)
    (fail : ∀ {d bytes d' rest}, d.error = none → d.stage ≠ .complete →
      d.step bytes = .fail d' rest → d.feed bytes = ⟨.error, d', rest⟩ → motive d bytes)
    (go : ∀ {d bytes d' rest}, d.error = none → d.stage ≠ .complete →
      d.step bytes = .go d' rest → d.feed bytes = d'.feed rest → motive d' rest → motive d bytes)
    (d : Decoder) (bytes : Bytes) : motive d bytes := by
  -- Each step that gets on makes the distance smaller.
  induction hn : d.distance bytes using Nat.strongRecOn generalizing d bytes with
  | ind n ih =>
    cases herror : d.error with
    | some e => exact failed e herror (feed_of_error herror)
    | none =>
      have hfeed : d.feed bytes = _ := feed_eq herror
      by_cases hstage : d.stage = .complete
      · rw [if_pos hstage] at hfeed
        exact complete herror hstage hfeed
      · rw [if_neg hstage] at hfeed
        cases hstep : d.step bytes with
        | wait d' rest => exact wait herror hstage hstep (by rw [hfeed, hstep])
        | fail d' rest => exact fail herror hstage hstep (by rw [hfeed, hstep])
        | go d' rest =>
          have hrest := ih _ (hn ▸ distance_lt_of_go hstage hstep) d' rest rfl
          exact go herror hstage hstep (by rw [hfeed, hstep]) hrest

/-- Feeding bytes that go on with `more`, given what feeding the bytes alone came
    to. -/
def Fed.resume (more : Bytes) : Fed → Fed
  | ⟨.needMore, d, rest⟩ => d.feed (rest ++ more)
  | ⟨status, d, rest⟩ => ⟨status, d, rest ++ more⟩

/-- Feeding bytes that go on is feeding the bytes alone, resumed. -/
theorem feed_append (d : Decoder) (bytes more : Bytes) :
    d.feed (bytes ++ more) = (d.feed bytes).resume more := by
  induction d, bytes using feed_induction with
  | failed e herror hfeed =>
    rw [hfeed, feed_of_error herror, Fed.resume]
    exact Status.noConfusion
  | complete herror hstage hfeed =>
    rw [hfeed, feed_eq herror, if_pos hstage]
    rfl
  | @wait d bytes d' rest herror hstage hstep hfeed =>
    -- On both sides the step that waited is made again, with the new bytes.
    have hwaiting : d'.error = none ∧ d'.stage ≠ .complete := by
      obtain ⟨rfl, -⟩ | ⟨remaining, -, -, -, rfl⟩ := step_wait hstep
      · exact ⟨herror, hstage⟩
      · exact ⟨herror, Stage.noConfusion⟩
    rw [hfeed, Fed.resume, feed_eq herror, if_neg hstage, step_append, hstep,
      feed_eq hwaiting.1, if_neg hwaiting.2]
    rfl
  | fail herror hstage hstep hfeed =>
    rw [hfeed, feed_eq herror, if_neg hstage, step_append, hstep]
    rfl
  | go herror hstage hstep hfeed ih =>
    rw [hfeed, feed_eq herror, if_neg hstage, step_append, hstep]
    exact ih

/-- Feeding that ends with an error leaves it in the decoder. -/
theorem error_of_feed (h : d.feed bytes = ⟨.error, d', rest⟩) : ∃ e, d'.error = some e := by
  induction d, bytes using feed_induction with
  | failed e herror hfeed =>
    rw [hfeed] at h
    cases h
    exact ⟨e, herror⟩
  | complete herror hstage hfeed | wait herror hstage hstep hfeed =>
    rw [hfeed] at h
    cases h
  | fail herror hstage hstep hfeed =>
    rw [hfeed] at h
    cases h
    exact step_fail hstep
  | go herror hstage hstep hfeed ih => exact ih (hfeed ▸ h)

/-- Feeding that completes a request leaves the decoder so. -/
theorem stage_of_feed (h : d.feed bytes = ⟨.complete, d', rest⟩) :
    d'.error = none ∧ d'.stage = .complete := by
  induction d, bytes using feed_induction with
  | complete herror hstage hfeed =>
    rw [hfeed] at h
    cases h
    exact ⟨herror, hstage⟩
  | failed e herror hfeed | wait herror hstage hstep hfeed | fail herror hstage hstep hfeed =>
    rw [hfeed] at h
    cases h
  | go herror hstage hstep hfeed ih => exact ih (hfeed ▸ h)

/-- A complete request is taken off the front of the bytes. -/
theorem suffix_of_feed (h : d.feed bytes = ⟨.complete, d', rest⟩) : rest <:+ bytes := by
  induction d, bytes using feed_induction with
  | complete herror hstage hfeed =>
    rw [hfeed] at h
    cases h
    exact List.suffix_rfl
  | failed e herror hfeed | wait herror hstage hstep hfeed | fail herror hstage hstep hfeed =>
    rw [hfeed] at h
    cases h
  | go herror hstage hstep hfeed ih =>
    obtain ⟨taken, htaken, -⟩ := (step_go hstep).eq_append
    exact (ih (hfeed ▸ h)).trans ⟨taken, htaken.symm⟩

/-! ### Waiting -/

/-- The decoder waits for more than the bytes: feeding them again changes
    nothing. -/
def Waits (d : Decoder) (bytes : Bytes) : Prop := d.feed bytes = ⟨.needMore, d, bytes⟩

/-- A decoder that asks for more waits at what it left. -/
theorem waits_of_feed (h : d.feed bytes = ⟨.needMore, d', rest⟩) : d'.Waits rest := by
  have hresume := feed_append d bytes []
  rw [List.append_nil, h, Fed.resume, List.append_nil] at hresume
  exact hresume.symm

theorem waits_reset (d : Decoder) : d.reset.Waits [] := rfl

theorem Waits.error_eq_none (h : d.Waits bytes) : d.error = none := by
  cases herror : d.error with
  | none => rfl
  | some e => rw [Waits, feed_of_error herror] at h; cases h

/-- A decoder that waits is neither done nor in a body of no bytes. -/
theorem Waits.stage_ne (h : d.Waits bytes) : d.stage ≠ .complete ∧ d.stage ≠ .body 0 := by
  have herror := h.error_eq_none
  rw [Waits, feed_eq herror] at h
  constructor
  · intro hstage
    rw [if_pos hstage] at h
    cases h
  · intro hstage
    have hstep : d.step bytes = .go { d.appendBody [] with stage := .complete } bytes := by
      simp [step, hstage, stepBody]
    rw [if_neg (by rw [hstage]; exact Stage.noConfusion), hstep] at h
    simp only at h
    rw [feed_eq (by exact herror), if_pos rfl] at h
    cases h

theorem appendBody_nil (d : Decoder) : d.appendBody [] = d := by
  simp only [appendBody, List.append_nil]

/-- A decoder that waits for more than some bytes waits for more than none. -/
theorem Waits.nil (h : d.Waits bytes) : d.Waits [] := by
  have herror := h.error_eq_none
  obtain ⟨hstage, hbody⟩ := h.stage_ne
  have hresume : d.feed bytes = (d.feed []).resume bytes := feed_append d [] bytes
  rw [h, feed_eq herror, if_neg hstage] at hresume
  rw [Waits, feed_eq herror, if_neg hstage]
  cases hstep : d.step [] with
  | fail d' rest => rw [hstep] at hresume; cases hresume
  | go d' rest =>
    obtain ⟨taken, htaken, hnil⟩ := (step_go hstep).eq_append
    exact absurd (hnil (List.append_eq_nil_iff.1 htaken.symm).1).1 hbody
  | wait d' rest =>
    obtain ⟨rfl, rfl⟩ | ⟨remaining, hremaining, -, rfl, rfl⟩ := step_wait hstep
    · rfl
    · rw [appendBody_nil, List.length_nil, Nat.sub_zero, ← hremaining]

/-- A decoder that waits takes at least one byte to complete a request. -/
theorem Waits.length_lt {waited : Bytes} (h : d.Waits waited)
    (hfeed : d.feed bytes = ⟨.complete, d', rest⟩) : rest.length < bytes.length := by
  obtain ⟨hstage, hbody⟩ := h.stage_ne
  rw [feed_eq h.error_eq_none, if_neg hstage] at hfeed
  split at hfeed
  · cases hfeed
  · cases hfeed
  · next d₁ rest₁ hstep =>
    obtain ⟨taken, rfl, hnil⟩ := (step_go hstep).eq_append
    have hle := (suffix_of_feed hfeed).length_le
    have hpos : 0 < taken.length := List.length_pos_iff.2 fun h => hbody (hnil h).1
    rw [List.length_append]
    omega

end Decoder

end PageServer.Http
