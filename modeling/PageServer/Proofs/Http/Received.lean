import PageServer.Proofs.Http.Lookup
import PageServer.Proofs.Http.Written

/-!
# Requests as they are received

A request that is complete was taken off the bytes in lines, of the header section or with the
size of a chunk, and in pieces of the body. `ReceivedRequest` is what there was in them,
`ReceivedRequest.encode` the bytes and `ReceivedRequest.request` the request that they make up.
`ReceivedRequest.Valid` is what the decoder has made sure of: that the parts can be told apart,
and that the body is the one that the fields announce.

At each stage a decoder still has to be told some of this. `Decoder.Completes` says of bytes
that they do so, and what request comes of it. A step that gets on leaves the rest to the
stage that it gets on to (`Decoder.completes_of_step`), so that all bytes up to the end of a
complete request are accounted for (`Decoder.completes_of_feed`). In which pieces they came
does not matter (`Decoder.feedEach_eq`, `Decoder.received_of_complete`).
-/

namespace PageServer.Http

open Numeral (Denotes HexDenotes)
open Bytes (ended ended_cons)

/-! ### What is received -/

/-- The field has a name, which the first colon ends, and a value with white space around it. -/
structure WrittenField.Received (f : WrittenField) : Prop where
  name_ne_nil : f.name ≠ []
  colon_not_mem : Byte.colon ∉ f.name
  value_trimmed : f.value.Trimmed
  blanks : ∀ b ∈ f.before ++ f.after, b.isSpace

/-- The line tells a size: a hexadecimal numeral, up to a semicolon or a NUL byte. -/
structure TellsSize (line : Bytes) (size : Nat) : Prop where
  oneLine : line.OneLine
  denotes : HexDenotes (Decoder.sizeText line).toNul size

/-- A chunk behind the line that tells its size. -/
structure ReceivedChunk where
  sizeLine : Bytes
  data : Bytes

namespace ReceivedChunk

def encode (c : ReceivedChunk) : Bytes := c.sizeLine ++ 13 :: 10 :: (c.data ++ [13, 10])

structure Valid (c : ReceivedChunk) : Prop where
  data_ne_nil : c.data ≠ []
  size : TellsSize c.sizeLine c.data.length

end ReceivedChunk

/-- The chunks of a body, the line that tells a size of zero, and trailers. -/
structure ReceivedChunks where
  chunks : List ReceivedChunk
  last : Bytes
  trailers : List Bytes

namespace ReceivedChunks

/-- The bytes of the body. -/
def bytes (c : ReceivedChunks) : Bytes := c.chunks.flatMap (·.data)

def encode (c : ReceivedChunks) : Bytes :=
  c.chunks.flatMap (·.encode) ++ c.last ++ 13 :: 10 :: ended (c.trailers ++ [[]])

structure Valid (c : ReceivedChunks) : Prop where
  chunks_valid : ∀ chunk ∈ c.chunks, chunk.Valid
  last_tells : TellsSize c.last 0
  trailers_oneLine : ∀ line ∈ c.trailers, line ≠ [] ∧ line.OneLine

end ReceivedChunks

/-- Fields by name that say that the body comes in chunks. -/
def AnnouncesChunks (value? : Bytes → Option Bytes) : Prop :=
  ∃ value, value? "Transfer-Encoding" = some value ∧ ("chunked" : Bytes) <:+: value.lower

/-- Fields by name that say how long the body is, if it does not come in chunks: as long as
    the numeral says that ends at the first NUL byte of the value, or else empty. -/
def AnnouncesLength (value? : Bytes → Option Bytes) (length : Nat) : Prop :=
  match value? "Content-Length" with
  | some value => Denotes 10 value.toNul length
  | none => length = 0

inductive ReceivedBody
  /-- All bytes at once. -/
  | sized (bytes : Bytes)
  | chunked (chunks : ReceivedChunks)

namespace ReceivedBody

/-- The bytes of the body. -/
def bytes : ReceivedBody → Bytes
  | sized bytes => bytes
  | chunked chunks => chunks.bytes

def encode : ReceivedBody → Bytes
  | sized bytes => bytes
  | chunked chunks => chunks.encode

/-- The body is the one that the fields announce. -/
def Announced (value? : Bytes → Option Bytes) : ReceivedBody → Prop
  | sized bytes => ¬ AnnouncesChunks value? ∧ AnnouncesLength value? bytes.length
  | chunked chunks => AnnouncesChunks value? ∧ chunks.Valid

end ReceivedBody

/-- A request in the bytes that it was received in. -/
structure ReceivedRequest where
  token : Bytes
  target : Bytes
  version : Version
  fields : List WrittenField
  body : ReceivedBody

namespace ReceivedRequest

variable (w : ReceivedRequest)

/-- The last value that came under a name, in whatever case. -/
def value? (name : Bytes) : Option Bytes :=
  (w.fields.reverse.find? fun f => name.sameFolded f.name).map (·.value)

def requestLine : Bytes :=
  w.token ++ Byte.blank :: (w.target ++ Byte.blank :: w.version.text)

/-- The request line, the fields and the empty line. -/
def headLines : List Bytes := w.requestLine :: (w.fields.map (·.line) ++ [[]])

def encode : Bytes := ended w.headLines ++ w.body.encode

/-- The request that the parts make up. -/
def request : Request :=
  { (({} : Request).withToken w.token).withTarget w.target with
    version := w.version
    fields := w.fields.foldl (fun t f => t.insert f.name f.value) .empty
    body := w.body.bytes }

structure Valid : Prop where
  token_ne_nil : w.token ≠ []
  token_upper : ∀ b ∈ w.token, b.isUpper
  target_ne_nil : w.target ≠ []
  blank_not_mem : Byte.blank ∉ w.target
  version_ne : w.version ≠ .unknown
  fields_received : ∀ f ∈ w.fields, f.Received
  headLines_oneLine : ∀ line ∈ w.headLines, line.OneLine
  announced : w.body.Announced w.value?

/-- What a request is that was received so. -/
structure Gives (r : Request) : Prop where
  token_eq : r.token = w.token
  method_eq : r.method = .ofToken w.token
  method_ne : r.method ≠ .invalid
  version_eq : r.version = w.version
  target_eq : r.target = w.target
  /-- The query starts with the first `?`. -/
  path_query : Byte.question ∉ r.path ∧ ∀ b ∈ r.query.head?, b = Byte.question
  entries : ∀ f ∈ r.fields.entries, (f.1 ≠ [] ∧ Byte.colon ∉ f.1) ∧ f.2.Trimmed
  /-- A name is there once, in whatever case, -/
  unique : r.fields.entries.Pairwise fun a b => ¬ a.1.sameFolded b.1
  /-- with the last value that came. -/
  get?_eq : ∀ name, r.fields.get? name = w.value? name
  body_eq : r.body = w.body.bytes

end ReceivedRequest

/-! ### Lines that were taken in -/

theorem Method.valid_of_ofToken {token : Bytes} (h : ofToken token ≠ .invalid) :
    token ≠ [] ∧ ∀ b ∈ token, b.isUpper := by
  rw [ofToken] at h
  split at h
  · exact absurd rfl h
  · next hvalid => simpa [List.isEmpty_iff, not_or] using hvalid

theorem Version.of_ofText {text : Bytes} {v : Version} (h : ofText text = some v) :
    v ≠ .unknown ∧ text = v.text := by
  rw [ofText] at h
  split_ifs at h with h11 h10 <;> cases h
  · exact ⟨Version.noConfusion, h11⟩
  · exact ⟨Version.noConfusion, h10⟩

namespace Decoder

variable {d d' : Decoder} {bytes rest line : Bytes}

theorem onRequestLine_eq_ok (h : d.onRequestLine line = .ok d') :
    ∃ token target version, Method.ofToken token ≠ .invalid ∧ target ≠ [] ∧
      Byte.blank ∉ target ∧ version ≠ .unknown ∧
      line = token ++ Byte.blank :: (target ++ Byte.blank :: version.text) ∧
      d' = { d with
        stage := .fields
        request := { (d.request.withToken token).withTarget target with version } } := by
  simp only [onRequestLine] at h
  split at h
  case h_1 => cases h
  case h_2 token rest hfirst =>
    split at h
    · cases h
    · next hmethod =>
      split at h
      case h_1 => cases h
      case h_2 => cases h
      case h_3 target text hne hsecond =>
        split at h
        · cases h
        · next version htext =>
          cases h
          obtain ⟨-, rfl⟩ := Bytes.break1_eq_some_iff.1 hfirst
          obtain ⟨hblank, rfl⟩ := Bytes.break1_eq_some_iff.1 hsecond
          obtain ⟨hversion, rfl⟩ := Version.of_ofText htext
          exact ⟨token, target, version, hmethod, hne, hblank, hversion, rfl, rfl⟩

theorem onField_eq_ok (h : d.onField line = .ok d') :
    ∃ f : WrittenField, f.Received ∧ line = f.line ∧ d' = d.withFields [f] := by
  simp only [onField] at h
  split at h
  case h_1 => cases h
  case h_2 => cases h
  case h_3 name value hne hbreak =>
    cases h
    obtain ⟨hcolon, rfl⟩ := Bytes.break1_eq_some_iff.1 hbreak
    obtain ⟨before, after, hvalue, htrimmed, hblanks⟩ := Bytes.exists_trim value
    refine ⟨⟨name, value.trim, before, after⟩, ⟨hne, hcolon, htrimmed, hblanks⟩, ?_, rfl⟩
    rw [WrittenField.line, ← hvalue]

theorem announcesChunks_iff (r : Request) :
    AnnouncesChunks r.fields.get? ↔ r.isChunked = true := by
  rw [AnnouncesChunks, Request.isChunked, Request.field, Bytes.contains_iff_infix]
  cases r.fields.get? "Transfer-Encoding" with
  | none => exact iff_of_false (by simp) (by decide)
  | some value => simp

/-- The end of the fields decides by what they announce. -/
theorem onFieldsEnd_eq_ok (htrimmed : ∀ value ∈ d.request.fields.get? "Content-Length",
      value.Trimmed) (h : d.onFieldsEnd = .ok d') :
    (AnnouncesChunks d.request.fields.get? ∧ d' = { d with stage := .chunkSize }) ∨
      ¬ AnnouncesChunks d.request.fields.get? ∧ ∃ n, AnnouncesLength d.request.fields.get? n ∧
        d' = { d with stage := if n = 0 then .complete else .body n } := by
  rw [announcesChunks_iff]
  rw [onFieldsEnd, ← Request.isChunked] at h
  split at h
  · next hchunked =>
    cases h
    exact .inl ⟨hchunked, rfl⟩
  · next hchunked =>
    refine .inr ⟨hchunked, ?_⟩
    rw [Request.hasField, Table.contains, Request.field] at h
    cases hvalue : d.request.fields.get? "Content-Length" with
    | none =>
      rw [hvalue] at h
      cases h
      exact ⟨0, by rw [AnnouncesLength, hvalue], rfl⟩
    | some value =>
      have hlength : ∀ n, Numeral.count 10 value = some n →
          AnnouncesLength d.request.fields.get? n := by
        intro n hcount
        rw [AnnouncesLength, hvalue]
        exact (Numeral.count_ten_eq_some_iff.1 hcount).1
      -- The value was trimmed when its line was taken in.
      have htrim : value.trim = value := (htrimmed value hvalue).trim_eq
      simp only [hvalue, Option.isSome_some, if_true, Option.getD_some, htrim] at h
      split at h
      case h_1 => cases h
      case h_2 hcount =>
        cases h
        exact ⟨0, hlength 0 hcount, rfl⟩
      case h_3 n hzero hcount =>
        cases h
        exact ⟨n, hlength n hcount, by rw [if_neg hzero]⟩

theorem onChunkSize_eq_ok (h : d.onChunkSize line = .ok d') :
    ∃ n, HexDenotes (sizeText line).toNul n ∧
      d' = { d with stage := if n = 0 then .trailers else .chunk n } := by
  simp only [onChunkSize, trim_break1_semicolon] at h
  split at h
  case h_1 => cases h
  case h_2 hcount =>
    cases h
    exact ⟨0, (Numeral.count_sixteen_eq_some_iff.1 hcount).1, rfl⟩
  case h_3 n hzero hcount =>
    split at h <;> cases h
    exact ⟨n, (Numeral.count_sixteen_eq_some_iff.1 hcount).1, by rw [if_neg hzero]⟩

end Decoder

/-! ### Fields that were taken in -/

/-- Each field is there under a name and with a value as a line gives them. -/
structure Fields.Tidy (t : Fields) : Prop where
  entries : ∀ f ∈ t.entries, (f.1 ≠ [] ∧ Byte.colon ∉ f.1) ∧ f.2.Trimmed

theorem Fields.tidy_empty : Fields.Tidy .empty where
  entries _ hf := absurd hf List.not_mem_nil

namespace Fields.Tidy

variable {t : Fields}

theorem insert (h : t.Tidy) {f : WrittenField} (hf : f.Received) :
    Fields.Tidy (t.insert f.name f.value) where
  entries :=
    Table.forall_mem_insert (p := fun name => name ≠ [] ∧ Byte.colon ∉ name) (q := Bytes.Trimmed)
      h.entries ⟨hf.name_ne_nil, hf.colon_not_mem⟩ hf.value_trimmed

theorem foldl_insert {fields : List WrittenField} (h : t.Tidy)
    (hfields : ∀ f ∈ fields, f.Received) :
    Fields.Tidy (fields.foldl (fun t f => t.insert f.name f.value) t) := by
  induction fields generalizing t with
  | nil => exact h
  | cons f fields ih =>
    rw [List.forall_mem_cons] at hfields
    exact ih (h.insert hfields.1) hfields.2

theorem trimmed (h : t.Tidy) {name value : Bytes} (hget : t.get? name = some value) :
    value.Trimmed := by
  obtain ⟨f, hf, -, rfl⟩ := Table.exists_mem_of_get? hget
  exact (h.entries f hf).2

end Fields.Tidy

namespace ReceivedRequest

variable {w : ReceivedRequest}

theorem get?_request (w : ReceivedRequest) : w.request.fields.get? = w.value? := by
  have hfields : w.request.fields = .ofList (w.fields.map fun f => (f.name, f.value)) := by
    rw [Table.ofList, List.foldl_map]
    rfl
  rw [hfields]
  exact funext (WrittenField.get?_ofList w.fields)

theorem Valid.tidy (h : w.Valid) : w.request.fields.Tidy :=
  Fields.tidy_empty.foldl_insert h.fields_received

theorem Valid.gives (h : w.Valid) : w.Gives w.request where
  token_eq := rfl
  method_eq := rfl
  method_ne := Method.ofToken_ne_invalid h.token_ne_nil h.token_upper
  version_eq := rfl
  target_eq := List.takeWhile_append_dropWhile
  path_query := by
    refine ⟨fun hmem => ?_, fun b hb => ?_⟩
    · exact absurd (List.mem_takeWhile_imp hmem) (by simp)
    · simpa using Bytes.not_of_mem_head?_dropWhile hb
  entries := h.tidy.entries
  unique := Fields.pairwise_names _
  get?_eq := congrFun w.get?_request
  body_eq := rfl

end ReceivedRequest

/-! ### What is left to be taken in -/

namespace Decoder

variable {d d' : Decoder} {q r : Request} {bytes rest left line : Bytes}

/-- At a stage, with the request `q` known so far, the bytes make the request `r` complete and
    leave the rest. A decoder that starts knows nothing yet, and one that is at the fields
    nothing of the body. -/
def Completes (stage : Stage) (q : Request) (bytes : Bytes) (r : Request) (rest : Bytes) : Prop :=
  match stage with
  | .requestLine =>
    q = {} → ∃ w : ReceivedRequest, w.Valid ∧ r = w.request ∧ bytes = w.encode ++ rest
  | .fields =>
    q.fields.Tidy → q.body = [] →
      ∃ (fields : List WrittenField) (body : ReceivedBody),
        (∀ f ∈ fields, f.Received ∧ f.line.OneLine) ∧
        r = { q with
          fields := fields.foldl (fun t f => t.insert f.name f.value) q.fields
          body := body.bytes } ∧
        body.Announced r.fields.get? ∧
        bytes = ended (fields.map (·.line) ++ [[]]) ++ (body.encode ++ rest)
  | .body n =>
    ∃ data : Bytes, data.length = n ∧ r = { q with body := q.body ++ data } ∧ bytes = data ++ rest
  | .chunkSize =>
    ∃ chunks : ReceivedChunks, chunks.Valid ∧ r = { q with body := q.body ++ chunks.bytes } ∧
      bytes = chunks.encode ++ rest
  | .chunk n =>
    ∃ (data : Bytes) (chunks : ReceivedChunks), data.length = n ∧ chunks.Valid ∧
      r = { q with body := q.body ++ (data ++ chunks.bytes) } ∧
      bytes = data ++ 13 :: 10 :: (chunks.encode ++ rest)
  | .trailers =>
    ∃ trailers : List Bytes, (∀ line ∈ trailers, line ≠ [] ∧ line.OneLine) ∧ r = q ∧
      bytes = ended (trailers ++ [[]]) ++ rest
  | .complete => r = q ∧ bytes = rest

/-- Behind the fields of a request with a length comes a body of this length. -/
theorem Completes.of_length {n : Nat}
    (h : Completes (if n = 0 then .complete else .body n) q bytes r rest) :
    ∃ data : Bytes, data.length = n ∧ r = { q with body := q.body ++ data } ∧
      bytes = data ++ rest := by
  cases n with
  | zero =>
    obtain ⟨rfl, rfl⟩ := h
    exact ⟨[], rfl, by rw [List.append_nil], rfl⟩
  | succ n => exact h

/-- A field is taken in with the fields behind it. -/
theorem completes_field {f : WrittenField} (hf : f.Received) (hline : f.line.OneLine)
    (h : Completes .fields { q with fields := q.fields.insert f.name f.value } bytes r rest) :
    Completes .fields q (f.line ++ 13 :: 10 :: bytes) r rest := by
  intro htidy hbody
  obtain ⟨fields, body, hfields, hr, hannounced, rfl⟩ := h (htidy.insert hf) hbody
  refine ⟨f :: fields, body, List.forall_mem_cons.2 ⟨⟨hf, hline⟩, hfields⟩, hr, hannounced, ?_⟩
  rw [List.map_cons, List.cons_append, ended_cons, List.append_assoc]
  rfl

/-- The empty line is taken in with the body behind it. -/
theorem completes_fieldsEnd (hend : d.onFieldsEnd = .ok d')
    (h : Completes d'.stage d'.request bytes r rest) :
    Completes .fields d.request (13 :: 10 :: bytes) r rest := by
  intro htidy hbody
  obtain ⟨hchunks, rfl⟩ | ⟨hchunks, n, hn, rfl⟩ :=
    onFieldsEnd_eq_ok (fun value hvalue => htidy.trimmed hvalue) hend
  · obtain ⟨chunks, hvalid, rfl, rfl⟩ := h
    refine ⟨[], .chunked chunks, by simp, ?_, ⟨hchunks, hvalid⟩, rfl⟩
    simp [hbody, ReceivedBody.bytes]
  · obtain ⟨data, rfl, rfl, rfl⟩ := Completes.of_length h
    refine ⟨[], .sized data, by simp, ?_, ⟨hchunks, hn⟩, rfl⟩
    simp [hbody, ReceivedBody.bytes]

/-- The request line is taken in with all that is behind it. -/
theorem completes_requestLine (hline : line.OneLine) (htaken : d.onRequestLine line = .ok d')
    (h : Completes d'.stage d'.request bytes r rest) :
    Completes .requestLine d.request (line ++ 13 :: 10 :: bytes) r rest := by
  intro hfresh
  obtain ⟨token, target, version, hmethod, htarget, hblank, hversion, rfl, rfl⟩ :=
    onRequestLine_eq_ok htaken
  rw [hfresh] at h
  obtain ⟨fields, body, hfields, rfl, hannounced, rfl⟩ := h Fields.tidy_empty rfl
  let w : ReceivedRequest := ⟨token, target, version, fields, body⟩
  obtain ⟨htoken, hupper⟩ := Method.valid_of_ofToken hmethod
  have hlines : ∀ line ∈ w.headLines, line.OneLine := by
    simp only [ReceivedRequest.headLines, List.forall_mem_cons, List.forall_mem_append,
      List.forall_mem_map]
    exact ⟨hline, fun f hf => (hfields f hf).2, Bytes.oneLine_nil, by simp⟩
  refine ⟨w, ⟨htoken, hupper, htarget, hblank, hversion, fun f hf => (hfields f hf).1, hlines,
    w.get?_request ▸ hannounced⟩, rfl, ?_⟩
  simp [w, ReceivedRequest.encode, ReceivedRequest.headLines, ReceivedRequest.requestLine, ended]

/-- A line that tells a size is taken in with the chunk behind it, or with the trailers. -/
theorem completes_chunkSize (hline : line.OneLine) (htaken : d.onChunkSize line = .ok d')
    (h : Completes d'.stage d'.request bytes r rest) :
    Completes .chunkSize d.request (line ++ 13 :: 10 :: bytes) r rest := by
  obtain ⟨n, hn, rfl⟩ := onChunkSize_eq_ok htaken
  cases n with
  | zero =>
    obtain ⟨trailers, htrailers, rfl, rfl⟩ := h
    refine ⟨⟨[], line, trailers⟩, ⟨by simp, ⟨hline, hn⟩, htrailers⟩, ?_, ?_⟩
    · simp [ReceivedChunks.bytes]
    · simp [ReceivedChunks.encode]
  | succ n =>
    obtain ⟨data, chunks, hdata, hchunks, rfl, rfl⟩ := h
    have hchunk : ReceivedChunk.Valid ⟨line, data⟩ :=
      ⟨List.ne_nil_of_length_eq_add_one hdata, ⟨hline, hdata ▸ hn⟩⟩
    have hall := List.forall_mem_cons.2 ⟨hchunk, hchunks.chunks_valid⟩
    refine ⟨{ chunks with chunks := ⟨line, data⟩ :: chunks.chunks },
      { hchunks with chunks_valid := hall }, ?_, ?_⟩
    · simp [ReceivedChunks.bytes]
    · simp [ReceivedChunks.encode, ReceivedChunk.encode]

/-- A line of the header section is taken in with what is behind it. -/
theorem completes_headerLine (hstage : d.stage.isHeader) (hline : line.OneLine)
    (htaken : d.onHeaderLine line = .ok d') (h : Completes d'.stage d'.request bytes r rest) :
    Completes d.stage d.request (line ++ 13 :: 10 :: bytes) r rest := by
  rcases hcase : d.stage with _ | _ | _ | _ | _ | _ | _ <;> rw [hcase] at hstage
  case requestLine =>
    simp only [onHeaderLine, hcase] at htaken
    exact completes_requestLine hline htaken h
  case fields =>
    by_cases hempty : line = []
    · subst hempty
      simp only [onHeaderLine, hcase] at htaken
      exact completes_fieldsEnd htaken h
    · rw [onHeaderLine_field hcase hempty] at htaken
      obtain ⟨f, hf, rfl, rfl⟩ := onField_eq_ok htaken
      rw [withFields, hcase] at h
      exact completes_field hf hline h
  case trailers =>
    by_cases hempty : line = []
    · subst hempty
      simp only [onHeaderLine, hcase] at htaken
      cases htaken
      obtain ⟨rfl, rfl⟩ := h
      exact ⟨[], by simp, rfl, rfl⟩
    · rw [onHeaderLine_trailer hcase hempty] at htaken
      cases htaken
      rw [hcase] at h
      obtain ⟨trailers, htrailers, rfl, rfl⟩ := h
      -- The line is one more trailer.
      refine ⟨line :: trailers, List.forall_mem_cons.2 ⟨⟨hempty, hline⟩, htrailers⟩, rfl, ?_⟩
      rw [List.cons_append, ended_cons, List.append_assoc]
      rfl
  all_goals cases hstage

/-- What a step takes, and what is left to the stage behind it. -/
theorem completes_of_step (hstep : d.step bytes = .go d' left)
    (h : Completes d'.stage d'.request left r rest) :
    Completes d.stage d.request bytes r rest := by
  rcases hstage : d.stage with _ | _ | n | _ | size | _ | _
  case requestLine | fields | trailers =>
    have hheader : d.stage.isHeader := by rw [hstage]; rfl
    rw [step_of_isHeader hheader] at hstep
    obtain ⟨line, rfl, hline, -, htaken⟩ := stepHeaderLine_eq_go_iff.1 hstep
    rw [← hstage]
    exact completes_headerLine (d := d.counting (line.length + 2)) hheader hline htaken h
  case chunkSize =>
    simp only [step, hstage] at hstep
    obtain ⟨line, rfl, hline, htaken⟩ := stepChunkSize_eq_go_iff.1 hstep
    exact completes_chunkSize hline htaken h
  case chunk =>
    simp only [step, hstage] at hstep
    obtain ⟨data, hdata, rfl, rfl⟩ := stepChunk_eq_go_iff.1 hstep
    obtain ⟨chunks, hchunks, rfl, rfl⟩ := h
    exact ⟨data, chunks, hdata, hchunks, by simp [appendBody], rfl⟩
  case body =>
    simp only [step, hstage] at hstep
    obtain ⟨data, hdata, rfl, rfl⟩ := stepBody_eq_go_iff.1 hstep
    obtain ⟨rfl, rfl⟩ := h
    exact ⟨data, hdata, rfl, rfl⟩
  case complete =>
    simp only [step, hstage] at hstep
    cases hstep

/-- All bytes that a complete request takes are accounted for. -/
theorem completes_of_feed (h : d.feed bytes = ⟨.complete, d', rest⟩) :
    Completes d.stage d.request bytes d'.request rest := by
  induction d, bytes using feed_induction with
  | complete herror hstage hfeed =>
    -- Nothing is left to be told.
    rw [hfeed] at h
    cases h
    rw [hstage]
    exact ⟨rfl, rfl⟩
  | failed e herror hfeed | wait herror hstage hstep hfeed | fail herror hstage hstep hfeed =>
    rw [hfeed] at h
    cases h
  | go herror hstage hstep hfeed ih => exact completes_of_step hstep (ih (hfeed ▸ h))

/-! ### Bytes in pieces -/

/-- What feeding came to, with pieces of bytes each behind what was left of those before. -/
def feedEach (limit : Nat) (pieces : List Bytes) : Fed :=
  pieces.foldl (fun fed piece => fed.decoder.feed (fed.rest ++ piece)) ⟨.needMore, { limit }, []⟩

/-- Fed in pieces, bytes come to what they come to at once. -/
theorem feedEach_eq (limit : Nat) (pieces : List Bytes) :
    feedEach limit pieces = ({ limit } : Decoder).feed pieces.flatten := by
  induction pieces using List.reverseRecOn with
  | nil => rfl
  | append_singleton pieces piece ih =>
    rw [feedEach, List.foldl_append, ← feedEach, ih, List.flatten_append, List.flatten_singleton,
      feed_append]
    rcases hfeed : ({ limit } : Decoder).feed pieces.flatten with ⟨_ | _ | _, d, rest⟩
    · rfl
    · obtain ⟨herror, hstage⟩ := stage_of_feed hfeed
      exact feed_of_complete herror hstage _
    · obtain ⟨e, herror⟩ := error_of_feed hfeed
      exact feed_of_error herror

/-- A request that is complete was received: its parts are what stood in the bytes that it
    took, in whatever pieces they came. -/
theorem received_of_complete (limit : Nat) (pieces : List Bytes)
    (h : (feedEach limit pieces).status = .complete) :
    ∃ w : ReceivedRequest, w.Valid ∧ w.Gives (feedEach limit pieces).decoder.request ∧
      pieces.flatten = w.encode ++ (feedEach limit pieces).rest := by
  rw [feedEach_eq] at h ⊢
  obtain ⟨w, hvalid, hrequest, htaken⟩ := completes_of_feed (feed_eq_of_complete h rfl) rfl
  rw [hrequest]
  exact ⟨w, hvalid, hvalid.gives, htaken⟩

/-- A chunked request with a length as well, with fields that come again and trailers, cut
    within its lines, its chunk and its end. -/
def receivedPieces : List Bytes :=
  ["PUT /a?b HTTP/1.0\r", "\nX:\t1\r\nContent-Length: 9\r\nx: 2 \r\nTransfer-Encoding: x, CHUN",
    "KED\r\n\r\n0x3;y\r\na", "bc\r\n0\r\nT\r\n\r", "\nGET"]

theorem received_of_complete_pieces :
    (feedEach 128 receivedPieces).status = .complete ∧
      ∃ w : ReceivedRequest, w.Valid ∧
        w.Gives (feedEach 128 receivedPieces).decoder.request ∧
        receivedPieces.flatten = w.encode ++ (feedEach 128 receivedPieces).rest ∧
        w.value? "X" = some ("2" : Bytes) ∧ w.body.bytes = ("abc" : Bytes) := by
  have hcomplete : (feedEach 128 receivedPieces).status = .complete := by decide +kernel
  obtain ⟨w, hvalid, hgives, htaken⟩ := received_of_complete 128 receivedPieces hcomplete
  refine ⟨hcomplete, w, hvalid, hgives, htaken, ?_, ?_⟩
  · rw [← hgives.get?_eq]
    decide +kernel
  · rw [← hgives.body_eq]
    decide +kernel

end Decoder

end PageServer.Http
