import PageServer.Proofs.Http.Delimited
import PageServer.Proofs.Numeral

/-!
# How long a body is

A line in front of the bytes is taken in at one step (`Decoder.step_headerLine`,
`Decoder.step_chunkSize`). The line that ends the header section says how long the
body is, or that it comes in chunks; a chunk size line says how long the next chunk
is. Both lengths are numerals, decimal and hexadecimal, in the part of their text
before the first NUL byte, and a hexadecimal one may have `0x` in front. Any other
text is an error (`Decoder.framing_numerals`).

So not all that is accepted is a numeral throughout: what stands behind a NUL byte
is not looked at, and the mark of a hexadecimal numeral is not part of it
(`Decoder.framing_not_only_numerals`).
-/

namespace PageServer.Http

open Numeral (Denotes HexDenotes)

/-- Whether the body of the request comes in chunks. -/
def Request.isChunked (r : Request) : Bool :=
  (r.field "Transfer-Encoding").lower.contains "chunked"

/-- Whether a line of the header section is expected. -/
def Stage.isHeader : Stage → Bool
  | .requestLine | .fields | .trailers => true
  | _ => false

namespace Decoder

variable {d d' : Decoder} {bytes rest line : Bytes}

/-! ### Single steps of feeding -/

theorem feed_of_go (herror : d.error = none) (hstage : d.stage ≠ .complete)
    (hstep : d.step bytes = .go d' rest) : d.feed bytes = d'.feed rest := by
  rw [feed_eq herror, if_neg hstage, hstep]

theorem feed_of_fail (herror : d.error = none) (hstage : d.stage ≠ .complete)
    (hstep : d.step bytes = .fail d' rest) : d.feed bytes = ⟨.error, d', rest⟩ := by
  rw [feed_eq herror, if_neg hstage, hstep]

theorem feed_of_complete (herror : d.error = none) (hstage : d.stage = .complete) (bytes : Bytes) :
    d.feed bytes = ⟨.complete, d, bytes⟩ := by
  rw [feed_eq herror, if_pos hstage]

/-- The decoder with so many more bytes of the header section counted. -/
def counting (d : Decoder) (n : Nat) : Decoder := { d with counted := d.counted + n }

theorem step_of_isHeader (hstage : d.stage.isHeader) (bytes : Bytes) :
    d.step bytes = d.stepHeaderLine bytes := by
  cases h : d.stage <;> simp only [step, h] <;> rw [h] at hstage <;> cases hstage

/-- A line of the header section that fits the limit is counted and taken in. -/
theorem step_headerLine (hstage : d.stage.isHeader) (hline : line.OneLine)
    (hfits : d.counted + (line.length + 2) ≤ d.limit) (rest : Bytes) :
    d.step (line ++ 13 :: 10 :: rest) =
      .ofResult rest ((d.counting (line.length + 2)).onHeaderLine line) := by
  have hcut : cutLine (line ++ 13 :: 10 :: rest) = some (line, rest) :=
    cutLine_eq_some_iff.2 ⟨rfl, hline⟩
  simp only [step_of_isHeader hstage, stepHeaderLine, hcut, if_neg (Nat.not_lt.2 hfits), counting]

theorem step_chunkSize (hstage : d.stage = .chunkSize) (hline : line.OneLine) (rest : Bytes) :
    d.step (line ++ 13 :: 10 :: rest) = .ofResult rest (d.onChunkSize line) := by
  have hcut : cutLine (line ++ 13 :: 10 :: rest) = some (line, rest) :=
    cutLine_eq_some_iff.2 ⟨rfl, hline⟩
  simp only [step, hstage, stepChunkSize, hcut]

/-! ### Bodies -/

/-- What taking a body of so many bytes comes to. -/
def takeBody (d : Decoder) (n : Nat) (bytes : Bytes) : Fed :=
  if bytes.length < n then
    ⟨.needMore, { d.appendBody bytes with stage := .body (n - bytes.length) }, []⟩
  else ⟨.complete, { d.appendBody (bytes.take n) with stage := .complete }, bytes.drop n⟩

theorem feed_body {n : Nat} (herror : d.error = none) (hstage : d.stage = .body n)
    (bytes : Bytes) : d.feed bytes = d.takeBody n bytes := by
  have hne : d.stage ≠ .complete := by rw [hstage]; exact Stage.noConfusion
  by_cases hlt : bytes.length < n
  · rw [feed_eq herror, if_neg hne]
    simp only [step, hstage, stepBody, takeBody, if_pos hlt,
      List.take_of_length_le hlt.le, List.drop_of_length_le hlt.le]
  · have hstep : d.step bytes =
        .go { d.appendBody (bytes.take n) with stage := .complete } (bytes.drop n) := by
      simp only [step, hstage, stepBody, if_neg hlt]
    rw [feed_of_go herror hne hstep, takeBody, if_neg hlt]
    exact feed_of_complete (by exact herror) rfl _

section Length

variable (hchunked : d.request.isChunked = false) (hlength : d.request.hasField "Content-Length")

include hchunked hlength

theorem onFieldsEnd_of_count {n : Nat}
    (hcount : Numeral.count 10 (d.request.field "Content-Length").trim = some n) :
    d.onFieldsEnd = .ok { d with stage := if n = 0 then .complete else .body n } := by
  rw [onFieldsEnd, if_neg (by rw [← Request.isChunked, hchunked]; exact Bool.false_ne_true),
    if_pos hlength]
  simp only [hcount]
  cases n <;> rfl

theorem onFieldsEnd_of_not_count
    (hcount : Numeral.count 10 (d.request.field "Content-Length").trim = none) :
    d.onFieldsEnd = .error (.badLength (d.request.field "Content-Length"), d) := by
  rw [onFieldsEnd, if_neg (by rw [← Request.isChunked, hchunked]; exact Bool.false_ne_true),
    if_pos hlength]
  simp only [hcount]

end Length

/-- The empty line ends the header section. -/
theorem step_fieldsEnd (hstage : d.stage = .fields) (hfits : d.counted + 2 ≤ d.limit)
    (rest : Bytes) : d.step (13 :: 10 :: rest) = .ofResult rest (d.counting 2).onFieldsEnd := by
  have hend : (d.counting 2).onHeaderLine [] = (d.counting 2).onFieldsEnd := by
    simp only [onHeaderLine, counting, hstage]
  rw [← hend]
  exact step_headerLine (by rw [hstage]; rfl) Bytes.oneLine_nil hfits rest

/-- Past the header section of a request with a length, the body is to be taken. -/
theorem feed_of_length {n : Nat} (herror : d.error = none) (bytes : Bytes) :
    { d with stage := if n = 0 then .complete else .body n : Decoder }.feed bytes =
      d.takeBody n bytes := by
  cases n with
  | zero =>
    rw [feed_of_complete (by exact herror) rfl]
    simp [takeBody, appendBody]
  | succ n =>
    rw [feed_body (by exact herror) rfl]
    rfl

/-! ### Chunk sizes -/

/-- The part of a chunk size line that tells the size. -/
def sizeText (line : Bytes) : Bytes := Bytes.trim (line.takeWhile (· != Byte.semicolon))

theorem trim_break1_semicolon (line : Bytes) :
    (line.break1 Byte.semicolon).1.trim = sizeText line := by
  rw [Bytes.break1_fst, sizeText]

theorem onChunkSize_of_denotes {n : Nat} (d : Decoder) (hn : HexDenotes (sizeText line).toNul n)
    (hle : n ≤ maxChunk) :
    d.onChunkSize line = .ok { d with stage := if n = 0 then .trailers else .chunk n } := by
  have hcount := Numeral.count_sixteen_eq_some_iff.2 ⟨hn, hle.trans_lt (by decide)⟩
  simp only [onChunkSize, trim_break1_semicolon, hcount]
  cases n with
  | zero => rfl
  | succ n => simp [Nat.not_lt.2 hle]

theorem onChunkSize_of_not_denotes (d : Decoder)
    (hnone : ∀ n ≤ maxChunk, ¬ HexDenotes (sizeText line).toNul n) :
    ∃ e, d.onChunkSize line = .error (e, d) ∧
      (e = .badChunkSize line ∨ e = .chunkTooLarge (sizeText line)) := by
  simp only [onChunkSize, trim_break1_semicolon]
  split
  case h_1 => exact ⟨_, rfl, .inl rfl⟩
  case h_2 hcount =>
    exact absurd (Numeral.count_sixteen_eq_some_iff.1 hcount).1 (hnone 0 (Nat.zero_le _))
  case h_3 n _ hcount =>
    have hlarge : maxChunk < n := Nat.lt_of_not_le fun hle =>
      hnone n hle (Numeral.count_sixteen_eq_some_iff.1 hcount).1
    rw [if_pos hlarge]
    exact ⟨_, rfl, .inr rfl⟩

/-! ### Both lengths -/

/-- What the two lengths of bodies are read as.

    At the end of the header section of a request with a length and no chunks, the
    body has as many bytes as the part of the length before its first NUL byte, a
    decimal numeral, stands for. If it is none, or stands for `2 ^ 64` or more, the
    decoder fails.

    A chunk has as many bytes as the part of its size before the first NUL byte, a
    hexadecimal numeral with or without `0x` in front, stands for. If it is none, or
    stands for more than `2 ^ 64 - 3`, the decoder fails. -/
theorem framing_numerals (d : Decoder) (herror : d.error = none) (rest : Bytes) :
    (d.stage = .fields → d.request.isChunked = false → d.request.hasField "Content-Length" →
      d.counted + 2 ≤ d.limit →
      (∀ n < 2 ^ 64, Denotes 10 (d.request.field "Content-Length").trim.toNul n →
        d.feed (13 :: 10 :: rest) = (d.counting 2).takeBody n rest) ∧
      ((∀ n < 2 ^ 64, ¬ Denotes 10 (d.request.field "Content-Length").trim.toNul n) →
        d.feed (13 :: 10 :: rest) =
          ⟨.error, { d.counting 2 with
            error := some (.badLength (d.request.field "Content-Length")) }, rest⟩)) ∧
    (d.stage = .chunkSize → ∀ line : Bytes, line.OneLine →
      (∀ n ≤ 2 ^ 64 - 3, HexDenotes (sizeText line).toNul n →
        d.feed (line ++ 13 :: 10 :: rest) =
          { d with stage := if n = 0 then .trailers else .chunk n : Decoder }.feed rest) ∧
      ((∀ n ≤ 2 ^ 64 - 3, ¬ HexDenotes (sizeText line).toNul n) →
        ∃ e, (e = .badChunkSize line ∨ e = .chunkTooLarge (sizeText line)) ∧
          d.feed (line ++ 13 :: 10 :: rest) = ⟨.error, { d with error := some e }, rest⟩)) := by
  refine ⟨fun hstage hchunked hlength hfits => ?_, fun hstage line hline => ?_⟩
  · have hne : d.stage ≠ .complete := by rw [hstage]; exact Stage.noConfusion
    have hstep := step_fieldsEnd hstage hfits rest
    constructor
    · intro n hlt hn
      have hcount := Numeral.count_ten_eq_some_iff.2 ⟨hn, hlt⟩
      have hend := onFieldsEnd_of_count (d := d.counting 2) hchunked hlength hcount
      rw [hend] at hstep
      rw [feed_of_go herror hne hstep]
      exact feed_of_length (d := d.counting 2) herror rest
    · intro hnone
      -- A numeral that is read would be one that the text denotes.
      have hcount : Numeral.count 10 (d.request.field "Content-Length").trim = none := by
        refine Option.eq_none_iff_forall_ne_some.2 fun n hn => ?_
        obtain ⟨hn, hlt⟩ := Numeral.count_ten_eq_some_iff.1 hn
        exact hnone n hlt hn
      have hend := onFieldsEnd_of_not_count (d := d.counting 2) hchunked hlength hcount
      rw [hend] at hstep
      exact feed_of_fail herror hne hstep
  · have hne : d.stage ≠ .complete := by rw [hstage]; exact Stage.noConfusion
    have hstep := step_chunkSize hstage hline rest
    constructor
    · intro n hle hn
      rw [onChunkSize_of_denotes d hn hle] at hstep
      exact feed_of_go herror hne hstep
    · intro hnone
      obtain ⟨e, hsize, he⟩ := onChunkSize_of_not_denotes d hnone
      rw [hsize] at hstep
      exact ⟨e, he, feed_of_fail herror hne hstep⟩

/-- The decoder that has been fed with the lines of a head. -/
def afterHead (lines : Bytes) : Decoder := (({} : Decoder).feed lines).decoder

/-- A length with a zero in front, and a chunk size with a mark and an extension. -/
theorem framing_numerals_five :
    (afterHead "PUT / HTTP/1.1\r\nContent-Length: 05 \r\n").feed "\r\nhello!" =
      ((afterHead "PUT / HTTP/1.1\r\nContent-Length: 05 \r\n").counting 2).takeBody 5 "hello!" ∧
    (afterHead "PUT / HTTP/1.1\r\nTransfer-Encoding: chunked\r\n\r\n").feed "0X5 ;x\r\nhello" =
      { afterHead "PUT / HTTP/1.1\r\nTransfer-Encoding: chunked\r\n\r\n" with
        stage := .chunk 5 : Decoder }.feed "hello" :=
  ⟨((framing_numerals _ (by decide +kernel) "hello!").1 (by decide +kernel) (by decide +kernel)
      (by decide +kernel) (by decide +kernel)).1 5 (by decide) (by decide +kernel),
    ((framing_numerals _ (by decide +kernel) "hello").2 (by decide +kernel) "0X5 ;x"
      (by decide)).1 5 (by decide) (.inr ⟨"5", .inr (by decide +kernel), by decide +kernel⟩)⟩

/-- A length is accepted that is no numeral, and so is a chunk size. -/
theorem framing_not_only_numerals :
    (¬ ∀ (d : Decoder) (rest : Bytes), d.error = none → d.stage = .fields →
      d.request.isChunked = false → d.request.hasField "Content-Length" →
      d.counted + 2 ≤ d.limit → (d.feed (13 :: 10 :: rest)).status ≠ .error →
      ∃ n, Denotes 10 (d.request.field "Content-Length").trim n) ∧
    ¬ ∀ (d : Decoder) (line rest : Bytes), d.error = none → d.stage = .chunkSize → line.OneLine →
      (d.feed (line ++ 13 :: 10 :: rest)).status ≠ .error → ∃ n, Denotes 16 (sizeText line) n := by
  constructor
  · intro hall
    obtain ⟨n, hn⟩ := hall (afterHead "PUT / HTTP/1.1\r\nContent-Length: 5\x00junk\r\n") "hello"
      (by decide +kernel) (by decide +kernel) (by decide +kernel) (by decide +kernel)
      (by decide +kernel) (by decide +kernel)
    have hzero := (Numeral.denotes_iff.1 hn).2.1 0 (by decide +kernel)
    exact absurd hzero (by decide)
  · intro hall
    obtain ⟨n, hn⟩ := hall (afterHead "PUT / HTTP/1.1\r\nTransfer-Encoding: chunked\r\n\r\n") "0x5"
      "hello" (by decide +kernel) (by decide +kernel) (by decide) (by decide +kernel)
    have hmark := (Numeral.denotes_iff.1 hn).2.1 120 (by decide)
    exact absurd hmark (by decide)

end Decoder

end PageServer.Http
