import PageServer.Proofs.Http.Decoder
import PageServer.Proofs.Text

/-!
# Where a request ends

A step that gets on takes some bytes off the front, and what it does follows from
those alone: whatever bytes stand behind them, it takes the same ones and comes to
the same decoder (`Decoder.step_delimits`). A complete request therefore ends where
its own bytes say (`Decoder.feed_delimits`), and before its last byte has come the
decoder waits for more (`Decoder.feed_selfDelimiting`).
-/

namespace PageServer.Http.Decoder

variable {d d' : Decoder} {bytes rest line : Bytes}

/-! ### Lines -/

theorem oneLine_of_cutLine (h : cutLine bytes = some (line, rest)) : line.OneLine := by
  unfold cutLine at h
  split at h
  · cases h
  · next i hi =>
    obtain ⟨hle, -, hleast⟩ := Bytes.find?_eq_some_iff.1 hi
    cases h
    -- A line end within the line would have been found before.
    rintro ⟨front, back, hline⟩
    have hlen := congrArg List.length hline
    simp only [List.length_append, List.length_take, List.length_cons, List.length_nil] at hlen
    refine hleast front.length (by omega) ?_
    rw [← List.take_append_drop i bytes, ← hline, List.append_assoc, List.append_assoc,
      List.drop_left]
    exact List.prefix_append _ _

/-- The line in front of the bytes ends at the first line end, and this is the one
    behind a text without any. -/
theorem cutLine_eq_some_iff :
    cutLine bytes = some (line, rest) ↔ bytes = line ++ 13 :: 10 :: rest ∧ line.OneLine := by
  constructor
  · exact fun h => ⟨eq_of_cutLine h, oneLine_of_cutLine h⟩
  · rintro ⟨rfl, hline⟩
    have hfind : Bytes.find? [13, 10] (line ++ 13 :: 10 :: rest) = some line.length := by
      refine Bytes.find?_eq_some_iff.2 ⟨by simp, ?_, fun j hj hat => ?_⟩
      · rw [List.drop_left]
        exact List.prefix_append [13, 10] rest
      · rw [List.drop_append_of_le_length hj.le] at hat
        cases hdrop : line.drop j with
        | nil =>
          have := List.drop_eq_nil_iff.1 hdrop
          omega
        | cons b tail =>
          rw [hdrop] at hat
          cases tail with
          | nil =>
            -- Only one byte of the line is left, and the next one is 13.
            obtain ⟨more, hmore⟩ := hat
            cases hmore
          | cons c tail =>
            have hin : [13, 10] <+: line.drop j := by
              rw [hdrop]
              exact List.prefix_of_prefix_length_le hat (List.prefix_append _ _) (by simp)
            exact hline (hin.isInfix.trans (List.drop_suffix j line).isInfix)
    simp only [cutLine, hfind]
    rw [List.take_left, ← List.drop_drop, List.drop_left]
    rfl

theorem cutLine_eq_none_iff : cutLine bytes = none ↔ bytes.OneLine := by
  rw [Bytes.OneLine, ← Bytes.contains_iff_infix, Bytes.contains, cutLine]
  cases Bytes.find? [13, 10] bytes <;> simp

/-! ### What a step takes -/

/-- The step gets on to a decoder and leaves some bytes, and would leave any other
    bytes just so in their place. -/
def Delimits (step : Bytes → Step) (bytes : Bytes) (d' : Decoder) (rest : Bytes) : Prop :=
  ∃ taken, bytes = taken ++ rest ∧ ∀ more, step (taken ++ more) = .go d' more

/-- A line of the header section is taken if it fits the limit and is taken in. -/
theorem stepHeaderLine_eq_go_iff :
    d.stepHeaderLine bytes = .go d' rest ↔
      ∃ line : Bytes, bytes = line ++ 13 :: 10 :: rest ∧ line.OneLine ∧
        d.counted + (line.length + 2) ≤ d.limit ∧
        ({ d with counted := d.counted + (line.length + 2) } : Decoder).onHeaderLine line =
          .ok d' := by
  constructor
  · intro h
    simp only [stepHeaderLine] at h
    split at h
    · split at h <;> cases h
    · next line left hcut =>
      split at h
      · cases h
      · next hfits =>
        obtain ⟨htaken, rfl⟩ := Step.ofResult_eq_go h
        obtain ⟨rfl, hline⟩ := cutLine_eq_some_iff.1 hcut
        exact ⟨line, rfl, hline, Nat.le_of_not_lt hfits, htaken⟩
  · rintro ⟨line, rfl, hline, hfits, htaken⟩
    have hcut := cutLine_eq_some_iff.2 ⟨(rfl : line ++ 13 :: 10 :: rest = _), hline⟩
    simp only [stepHeaderLine, hcut, if_neg (Nat.not_lt.2 hfits), htaken]
    rfl

theorem stepChunkSize_eq_go_iff :
    d.stepChunkSize bytes = .go d' rest ↔
      ∃ line : Bytes, bytes = line ++ 13 :: 10 :: rest ∧ line.OneLine ∧
        d.onChunkSize line = .ok d' := by
  constructor
  · intro h
    simp only [stepChunkSize] at h
    split at h
    · cases h
    · next line left hcut =>
      obtain ⟨htaken, rfl⟩ := Step.ofResult_eq_go h
      obtain ⟨rfl, hline⟩ := cutLine_eq_some_iff.1 hcut
      exact ⟨line, rfl, hline, htaken⟩
  · rintro ⟨line, rfl, hline, htaken⟩
    have hcut := cutLine_eq_some_iff.2 ⟨(rfl : line ++ 13 :: 10 :: rest = _), hline⟩
    simp only [stepChunkSize, hcut, htaken]
    rfl

/-- A chunk is taken with the line end behind it. -/
theorem stepChunk_eq_go_iff {size : Nat} :
    d.stepChunk size bytes = .go d' rest ↔
      ∃ data : Bytes, data.length = size ∧ bytes = data ++ 13 :: 10 :: rest ∧
        d' = { d.appendBody data with stage := .chunkSize } := by
  constructor
  · intro h
    simp only [stepChunk] at h
    split at h
    · cases h
    · next hlen =>
      split at h
      · next left hdrop =>
        cases h
        refine ⟨bytes.take size, List.length_take_of_le (by omega), ?_, rfl⟩
        rw [← hdrop, List.take_append_drop]
      · cases h
  · rintro ⟨data, rfl, rfl, rfl⟩
    have hlen : ¬ (data ++ 13 :: 10 :: rest).length < data.length + 2 := by simp
    simp only [stepChunk, hlen, if_false, List.take_left, List.drop_left]

theorem stepBody_eq_go_iff {remaining : Nat} :
    d.stepBody remaining bytes = .go d' rest ↔
      ∃ data : Bytes, data.length = remaining ∧ bytes = data ++ rest ∧
        d' = { d.appendBody data with stage := .complete } := by
  constructor
  · intro h
    simp only [stepBody] at h
    split at h
    · cases h
    · next hlen =>
      cases h
      exact ⟨bytes.take remaining, List.length_take_of_le (by omega),
        (List.take_append_drop _ _).symm, rfl⟩
  · rintro ⟨data, rfl, rfl, rfl⟩
    have hlen : ¬ (data ++ rest).length < data.length := by simp
    simp only [stepBody, hlen, if_false, List.take_left, List.drop_left]

theorem stepHeaderLine_delimits (h : d.stepHeaderLine bytes = .go d' rest) :
    Delimits d.stepHeaderLine bytes d' rest := by
  obtain ⟨line, rfl, hline⟩ := stepHeaderLine_eq_go_iff.1 h
  refine ⟨line ++ [13, 10], by simp, fun more => ?_⟩
  exact stepHeaderLine_eq_go_iff.2 ⟨line, by simp, hline⟩

theorem stepChunkSize_delimits (h : d.stepChunkSize bytes = .go d' rest) :
    Delimits d.stepChunkSize bytes d' rest := by
  obtain ⟨line, rfl, hline⟩ := stepChunkSize_eq_go_iff.1 h
  refine ⟨line ++ [13, 10], by simp, fun more => ?_⟩
  exact stepChunkSize_eq_go_iff.2 ⟨line, by simp, hline⟩

theorem stepChunk_delimits {size : Nat} (h : d.stepChunk size bytes = .go d' rest) :
    Delimits (d.stepChunk size) bytes d' rest := by
  obtain ⟨data, hsize, rfl, hd⟩ := stepChunk_eq_go_iff.1 h
  refine ⟨data ++ [13, 10], by simp, fun more => ?_⟩
  exact stepChunk_eq_go_iff.2 ⟨data, hsize, by simp, hd⟩

theorem stepBody_delimits {remaining : Nat} (h : d.stepBody remaining bytes = .go d' rest) :
    Delimits (d.stepBody remaining) bytes d' rest := by
  obtain ⟨data, hsize, rfl, hd⟩ := stepBody_eq_go_iff.1 h
  exact ⟨data, rfl, fun more => stepBody_eq_go_iff.2 ⟨data, hsize, rfl, hd⟩⟩

/-- What a step does follows from the bytes that it takes. -/
theorem step_delimits (h : d.step bytes = .go d' rest) : Delimits d.step bytes d' rest := by
  rcases hstage : d.stage with _ | _ | remaining | _ | size | _ | _
  case requestLine | fields | trailers =>
    have hstep : d.step = d.stepHeaderLine := funext fun b => by simp only [step, hstage]
    rw [hstep] at h ⊢
    exact stepHeaderLine_delimits h
  case chunkSize =>
    have hstep : d.step = d.stepChunkSize := funext fun b => by simp only [step, hstage]
    rw [hstep] at h ⊢
    exact stepChunkSize_delimits h
  case chunk =>
    have hstep : d.step = d.stepChunk size := funext fun b => by simp only [step, hstage]
    rw [hstep] at h ⊢
    exact stepChunk_delimits h
  case body =>
    have hstep : d.step = d.stepBody remaining := funext fun b => by simp only [step, hstage]
    rw [hstep] at h ⊢
    exact stepBody_delimits h
  case complete =>
    simp only [step, hstage] at h
    cases h

/-! ### What a request takes -/

/-- A complete request is what its own bytes say, whatever follows them. -/
theorem feed_delimits (h : d.feed bytes = ⟨.complete, d', rest⟩) :
    ∃ taken, bytes = taken ++ rest ∧ ∀ more, d.feed (taken ++ more) = ⟨.complete, d', more⟩ := by
  induction d, bytes using feed_induction with
  | failed e herror hfeed | wait herror hstage hstep hfeed | fail herror hstage hstep hfeed =>
    rw [hfeed] at h
    cases h
  | complete herror hstage hfeed =>
    rw [hfeed] at h
    cases h
    exact ⟨[], rfl, fun more => by rw [feed_eq herror, if_pos hstage]; rfl⟩
  | go herror hstage hstep hfeed ih =>
    -- The bytes of the first step and those of the steps behind it.
    obtain ⟨first, rfl, hfirst⟩ := step_delimits hstep
    obtain ⟨taken, rfl, htaken⟩ := ih (hfeed ▸ h)
    refine ⟨first ++ taken, (List.append_assoc _ _ _).symm, fun more => ?_⟩
    rw [List.append_assoc, feed_eq herror, if_neg hstage, hfirst]
    exact htaken more

/-- A request that is complete takes a part off the front of the bytes, and this part
    alone says what it is: with any other bytes behind it, the same request is
    complete and exactly those bytes are left. Of less than all of it the decoder
    asks for more. -/
theorem feed_selfDelimiting (limit : Nat) {d' : Decoder} {bytes rest : Bytes}
    (h : ({ limit } : Decoder).feed bytes = ⟨.complete, d', rest⟩) :
    ∃ taken, bytes = taken ++ rest ∧
      (∀ more, ({ limit } : Decoder).feed (taken ++ more) = ⟨.complete, d', more⟩) ∧
      ∀ part, part <+: taken → part ≠ taken →
        (({ limit } : Decoder).feed part).status = .needMore := by
  obtain ⟨taken, htaken, hmore⟩ := feed_delimits h
  refine ⟨taken, htaken, hmore, ?_⟩
  rintro part ⟨missing, rfl⟩ hpart
  have hwhole := hmore []
  rw [List.append_nil, feed_append] at hwhole
  rcases hfeed : ({ limit } : Decoder).feed part with ⟨_ | _ | _, d₁, rest₁⟩
  · rfl
  · -- Complete already, the missing bytes would be left.
    rw [hfeed] at hwhole
    obtain ⟨-, hnil⟩ := List.append_eq_nil_iff.1 (Fed.mk.inj hwhole).2.2
    exact absurd (by rw [hnil, List.append_nil]) hpart
  · -- An error is not taken back.
    rw [hfeed] at hwhole
    cases hwhole

theorem feed_eq_of_complete (hstatus : (d.feed bytes).status = .complete)
    (hrest : (d.feed bytes).rest = rest) :
    d.feed bytes = ⟨.complete, (d.feed bytes).decoder, rest⟩ := by
  rw [← hstatus, ← hrest]

/-- A chunked request with a trailer, and the beginning of another request behind
    it. -/
def chunkedStream : Bytes :=
  "PUT /a HTTP/1.1\r\nTransfer-Encoding: chunked\r\n\r\n2;x\r\n\r\n\r\n0\r\nT: t\r\n\r\nGET"

theorem feed_selfDelimiting_chunked :
    ∃ d', ({ limit := 128 } : Decoder).feed chunkedStream = ⟨.complete, d', "GET"⟩ ∧
      ∃ taken, chunkedStream = taken ++ ("GET" : Bytes) ∧
        (∀ more, ({ limit := 128 } : Decoder).feed (taken ++ more) = ⟨.complete, d', more⟩) ∧
        ∀ part, part <+: taken → part ≠ taken →
          (({ limit := 128 } : Decoder).feed part).status = .needMore := by
  have hstatus : (({ limit := 128 } : Decoder).feed chunkedStream).status = .complete := by
    decide +kernel
  have hrest : (({ limit := 128 } : Decoder).feed chunkedStream).rest = "GET" := by
    decide +kernel
  have hfeed := feed_eq_of_complete hstatus hrest
  exact ⟨_, hfeed, feed_selfDelimiting 128 hfeed⟩

end PageServer.Http.Decoder
