import PageServer.Proofs.Http.Framing
import PageServer.Proofs.Table

/-!
# Requests as they are written

A request can be written in many ways: with blanks around the values of its fields,
with its body of a known length or cut into chunks, with zeros in front of a size,
extensions behind it and trailers behind the last chunk. `WrittenRequest` is a request
with one choice of all that, `WrittenRequest.encode` its bytes.

The decoder reads back what was written, whatever bytes follow
(`Decoder.feed_encode`): each line is taken in by a step of its own, so that the fields,
the chunks and the trailers are three inductions. Requests written one behind the
other are read back one after the other (`Decoder.takeEach_encode`).
-/

namespace PageServer.Http

open Numeral (Denotes)
open Bytes (ended ended_cons ended_append length_ended_cons)

/-! ### Writing -/

/-- A header field with blanks around its value. -/
structure WrittenField where
  name : Bytes
  value : Bytes
  before : Bytes := []
  after : Bytes := []

namespace WrittenField

def line (f : WrittenField) : Bytes := f.name ++ Byte.colon :: (f.before ++ f.value ++ f.after)

/-- The line tells the name from the value, and the value from the blanks. -/
structure Valid (f : WrittenField) : Prop where
  name_ne_nil : f.name ≠ []
  colon_not_mem : Byte.colon ∉ f.name
  name_oneLine : f.name.OneLine
  value_oneLine : f.value.OneLine
  value_trimmed : f.value.Trimmed
  blanks : ∀ b ∈ f.before ++ f.after, b = 32 ∨ b = 9

end WrittenField

/-- A chunk size: its digits, and an extension behind them. -/
structure WrittenSize where
  digits : Bytes
  extension : Bytes := []

namespace WrittenSize

def line (s : WrittenSize) : Bytes := s.digits ++ s.extension

/-- The digits, of either case and with any zeros in front, stand for the size, and an
    extension starts with a semicolon. -/
structure Valid (s : WrittenSize) (size : Nat) : Prop where
  denotes : Denotes 16 s.digits size
  extension_head : ∀ b ∈ s.extension.head?, b = Byte.semicolon
  extension_oneLine : s.extension.OneLine

end WrittenSize

structure WrittenChunk where
  size : WrittenSize
  data : Bytes

namespace WrittenChunk

def encode (c : WrittenChunk) : Bytes := c.size.line ++ 13 :: 10 :: (c.data ++ [13, 10])

structure Valid (c : WrittenChunk) : Prop where
  data_ne_nil : c.data ≠ []
  size_valid : c.size.Valid c.data.length
  /-- No longer than can be counted. -/
  length_le : c.data.length ≤ 2 ^ 64 - 3

end WrittenChunk

inductive WrittenBody
  /-- All bytes at once. -/
  | sized (bytes : Bytes)
  /-- Chunks, a last size of zero, and trailers. -/
  | chunked (chunks : List WrittenChunk) (last : WrittenSize) (trailers : List Bytes)

namespace WrittenBody

/-- The bytes of the body. -/
def bytes : WrittenBody → Bytes
  | sized bytes => bytes
  | chunked chunks _ _ => chunks.flatMap (·.data)

/-- The lines behind the chunks that belong to the header section. -/
def trailerLines : WrittenBody → List Bytes
  | sized _ => []
  | chunked _ _ trailers => trailers ++ [[]]

def encode : WrittenBody → Bytes
  | sized bytes => bytes
  | chunked chunks last trailers =>
    chunks.flatMap (·.encode) ++ last.line ++ 13 :: 10 :: ended (trailers ++ [[]])

/-- The field, of a name in any case, announces the body. -/
def Announced (f : WrittenField) : WrittenBody → Prop
  | sized bytes => f.name.sameFolded "Content-Length" ∧ Denotes 10 f.value bytes.length
  | chunked _ _ _ => f.name.sameFolded "Transfer-Encoding" ∧ f.value.sameFolded "chunked"

def Valid : WrittenBody → Prop
  | sized bytes => bytes.length < 2 ^ 64
  | chunked chunks last trailers =>
    (∀ c ∈ chunks, c.Valid) ∧ last.Valid 0 ∧ ∀ line ∈ trailers, line ≠ [] ∧ line.OneLine

end WrittenBody

/-- The text of a version. -/
def Version.text : Version → Bytes
  | .http10 => "HTTP/1.0"
  | _ => "HTTP/1.1"

/-- A request with the way it is written. The field that announces the body stands
    anywhere among the others. -/
structure WrittenRequest where
  token : Bytes
  target : Bytes
  version : Version := .http11
  front : List WrittenField := []
  framing : WrittenField
  back : List WrittenField := []
  body : WrittenBody

namespace WrittenRequest

variable (w : WrittenRequest)

def fields : List WrittenField := w.front ++ w.framing :: w.back

def requestLine : Bytes :=
  w.token ++ Byte.blank :: (w.target ++ Byte.blank :: w.version.text)

/-- The request line, the fields and the empty line. -/
def headLines : List Bytes := w.requestLine :: (w.fields.map (·.line) ++ [[]])

def encode : Bytes := ended w.headLines ++ w.body.encode

/-- How many bytes count against the limit: those of all lines up to the empty one
    behind the fields and, if there are chunks, of the trailers and the empty line
    behind them. -/
def headerLength : Nat := (ended (w.headLines ++ w.body.trailerLines)).length

structure Valid (limit : Nat) : Prop where
  token_ne_nil : w.token ≠ []
  token_upper : ∀ b ∈ w.token, b.isUpper
  target_ne_nil : w.target ≠ []
  blank_not_mem : Byte.blank ∉ w.target
  target_oneLine : w.target.OneLine
  version_ne : w.version ≠ .unknown
  fields_valid : ∀ f ∈ w.fields, f.Valid
  /-- Only the announcing field has one of the two names. -/
  others : ∀ f ∈ w.front ++ w.back, ¬ f.name.sameFolded "Content-Length" ∧
    ¬ f.name.sameFolded "Transfer-Encoding"
  announced : w.body.Announced w.framing
  body_valid : w.body.Valid
  fits : w.headerLength ≤ limit

/-- What a request has to be that was read from what was written. -/
structure ReadAs (r : Request) : Prop where
  token_eq : r.token = w.token
  method_eq : r.method = .ofToken w.token
  target_eq : r.target = w.target
  version_eq : r.version = w.version
  body_eq : r.body = w.body.bytes
  /-- Of several fields whose names are the same up to case the last one counts, -/
  field_eq : ∀ name, r.fields.get? name =
    (w.fields.reverse.find? fun f => name.sameFolded f.name).map (·.value)
  /-- under the name of the first one. -/
  mem_keys_iff : ∀ name, name ∈ r.fields.keys ↔
    (w.fields.find? fun f => name.sameFolded f.name).map (·.name) = some name
  /-- The names are there in their order, each once. -/
  sorted : r.fields.entries.Pairwise fun a b => Bytes.compareFolded a.1 b.1 = .lt

/-- The request that was written, without its body. -/
def head : Request :=
  { (({} : Request).withToken w.token).withTarget w.target with
    version := w.version
    fields := .ofList (w.fields.map fun f => (f.name, f.value)) }

end WrittenRequest

/-! ### Reading lines -/

theorem Version.ofText_text {v : Version} (h : v ≠ .unknown) : ofText v.text = some v := by
  cases v with
  | unknown => exact absurd rfl h
  | http10 | http11 => decide

theorem Version.text_oneLine (v : Version) : v.text.OneLine := by
  cases v <;> decide

theorem Method.ofToken_ne_invalid {token : Bytes} (hne : token ≠ [])
    (hupper : ∀ b ∈ token, b.isUpper) : ofToken token ≠ .invalid := by
  have hvalid : ¬ (token.isEmpty ∨ ¬ token.all Byte.isUpper) := by
    simpa [hne] using hupper
  rw [ofToken, if_neg hvalid]
  cases hfind : [get, post, head, put, delete].find? (·.name = token) with
  | none => exact Method.noConfusion
  | some m =>
    have hm := List.mem_of_find?_eq_some hfind
    rintro rfl
    simp at hm

namespace WrittenField

variable {f : WrittenField}

theorem Valid.blank_ne (h : f.Valid) {b : Byte} (hb : b ∈ f.before ++ f.after) :
    b.isSpace ∧ b ≠ 13 ∧ b ≠ 10 := by
  rcases h.blanks b hb with rfl | rfl <;> decide

theorem Valid.trim_eq (h : f.Valid) : (f.before ++ f.value ++ f.after).trim = f.value :=
  Bytes.trim_append h.value_trimmed
    (fun _ hb => (h.blank_ne (List.mem_append_left _ hb)).1)
    (fun _ hb => (h.blank_ne (List.mem_append_right _ hb)).1)

theorem Valid.line_ne_nil (h : f.Valid) : f.line ≠ [] :=
  List.append_ne_nil_of_left_ne_nil h.name_ne_nil _

theorem Valid.line_oneLine (h : f.Valid) : f.line.OneLine := by
  have hbefore : f.before.OneLine :=
    Bytes.oneLine_of_not_mem fun hb => (h.blank_ne (List.mem_append_left _ hb)).2.1 rfl
  have hafter : f.after.OneLine :=
    Bytes.oneLine_of_not_mem fun hb => (h.blank_ne (List.mem_append_right _ hb)).2.1 rfl
  have hvalue : f.value.head? ≠ some 10 := fun hhead =>
    h.value_trimmed.1 10 hhead (by decide)
  have hblank : f.after.head? ≠ some 10 := fun hhead =>
    (h.blank_ne (List.mem_append_right _ (List.mem_of_mem_head? hhead))).2.2 rfl
  exact h.name_oneLine.append_cons (by decide)
    ((hbefore.append h.value_oneLine hvalue).append hafter hblank)

end WrittenField

theorem WrittenSize.Valid.line_oneLine {s : WrittenSize} {size : Nat} (h : s.Valid size) :
    s.line.OneLine := by
  have hdigits : s.digits.OneLine := Bytes.oneLine_of_not_mem fun hb =>
    absurd ((Numeral.denotes_iff.1 h.denotes).2.1 13 hb) (by decide)
  refine hdigits.append h.extension_oneLine fun hhead => ?_
  exact absurd (h.extension_head 10 hhead) (by decide)

theorem WrittenRequest.Valid.requestLine_oneLine {w : WrittenRequest} {limit : Nat}
    (h : w.Valid limit) : w.requestLine.OneLine := by
  have htoken : w.token.OneLine :=
    Bytes.oneLine_of_not_mem fun hb => absurd (h.token_upper 13 hb) (by decide)
  exact htoken.append_cons (by decide)
    (h.target_oneLine.append_cons (by decide) w.version.text_oneLine)

namespace Decoder

variable {d : Decoder} {bytes : Bytes} {limit : Nat} {w : WrittenRequest}

/-- The decoder with fields put into its request. -/
def withFields (d : Decoder) (fields : List WrittenField) : Decoder :=
  { d with request := { d.request with
      fields := fields.foldl (fun t f => t.insert f.name f.value) d.request.fields } }

theorem onField_line {f : WrittenField} (d : Decoder) (h : f.Valid) :
    d.onField f.line = .ok (d.withFields [f]) := by
  have hbreak := Bytes.break1_append h.colon_not_mem (f.before ++ f.value ++ f.after)
  obtain ⟨b, name, hname⟩ := List.exists_cons_of_ne_nil h.name_ne_nil
  rw [hname] at hbreak
  simp only [onField, WrittenField.line, hname, hbreak, h.trim_eq]
  rw [← hname]
  rfl

theorem onRequestLine_line (d : Decoder) (h : w.Valid limit) :
    d.onRequestLine w.requestLine =
      .ok { d with
        stage := .fields
        request := { (d.request.withToken w.token).withTarget w.target with
          version := w.version } } := by
  have hblank : Byte.blank ∉ w.token := fun hb => absurd (h.token_upper _ hb) (by decide)
  have hfirst := Bytes.break1_append hblank (w.target ++ Byte.blank :: w.version.text)
  have hsecond := Bytes.break1_append h.blank_not_mem w.version.text
  have hmethod := Method.ofToken_ne_invalid h.token_ne_nil h.token_upper
  obtain ⟨b, target, htarget⟩ := List.exists_cons_of_ne_nil h.target_ne_nil
  rw [htarget] at hfirst hsecond
  simp only [onRequestLine, WrittenRequest.requestLine, htarget, hfirst, hsecond,
    Request.withToken, hmethod, if_false, Version.ofText_text h.version_ne]

theorem sizeText_line {s : WrittenSize} {size : Nat} (h : s.Valid size) :
    sizeText s.line = s.digits := by
  have hdigits : ∀ b ∈ s.digits, Numeral.isDigitOf 16 b := (Numeral.denotes_iff.1 h.denotes).2.1
  have hkept : s.line.takeWhile (· != Byte.semicolon) = s.digits := by
    have hsemicolon : ∀ b ∈ s.digits, (b != Byte.semicolon) = true := fun b hb =>
      bne_iff_ne.2 fun heq => absurd (heq ▸ hdigits b hb) (by decide)
    rw [WrittenSize.line, List.takeWhile_append_of_pos hsemicolon]
    cases hextension : s.extension with
    | nil => simp
    | cons b extension =>
      have hb : b = Byte.semicolon := h.extension_head b (by rw [hextension]; rfl)
      rw [List.takeWhile_cons_of_neg (by simp [hb]), List.append_nil]
  rw [sizeText, hkept, h.denotes.trim_eq]

/-- A size is taken in as the number that its digits stand for. -/
theorem onChunkSize_line {s : WrittenSize} {size : Nat} (d : Decoder) (h : s.Valid size)
    (hle : size ≤ maxChunk) :
    d.onChunkSize s.line = .ok { d with stage := if size = 0 then .trailers else .chunk size } := by
  refine onChunkSize_of_denotes d ?_ hle
  rw [sizeText_line h, h.denotes.toNul_eq]
  exact .inl h.denotes

/-! ### Reading fields, chunks and trailers -/

theorem feed_headerLine {d' : Decoder} {line : Bytes} (herror : d.error = none)
    (hstage : d.stage.isHeader) (hline : line.OneLine)
    (hfits : d.counted + (line.length + 2) ≤ d.limit)
    (htaken : (d.counting (line.length + 2)).onHeaderLine line = .ok d') (rest : Bytes) :
    d.feed (line ++ 13 :: 10 :: rest) = d'.feed rest := by
  have hne : d.stage ≠ .complete := by
    intro h
    rw [h] at hstage
    cases hstage
  have hstep := step_headerLine hstage hline hfits rest
  rw [htaken] at hstep
  exact feed_of_go herror hne hstep

theorem onHeaderLine_field {line : Bytes} (hstage : d.stage = .fields) (hne : line ≠ []) :
    d.onHeaderLine line = d.onField line := by
  cases line with
  | nil => exact absurd rfl hne
  | cons b line => simp only [onHeaderLine, hstage]

theorem onHeaderLine_trailer {line : Bytes} (hstage : d.stage = .trailers) (hne : line ≠ []) :
    d.onHeaderLine line = .ok d := by
  cases line with
  | nil => exact absurd rfl hne
  | cons b line => simp only [onHeaderLine, hstage]

/-- The fields are taken into the request one after the other. -/
theorem feed_fields {fields : List WrittenField} (hvalid : ∀ f ∈ fields, f.Valid)
    (herror : d.error = none) (hstage : d.stage = .fields)
    (hfits : d.counted + (ended (fields.map (·.line))).length ≤ d.limit) (rest : Bytes) :
    d.feed (ended (fields.map (·.line)) ++ rest) =
      ((d.counting (ended (fields.map (·.line))).length).withFields fields).feed rest := by
  induction fields generalizing d with
  | nil => rfl
  | cons f fields ih =>
    rw [List.forall_mem_cons] at hvalid
    rw [List.map_cons, length_ended_cons] at hfits ⊢
    have htaken : (d.counting (f.line.length + 2)).onHeaderLine f.line =
        .ok ((d.counting (f.line.length + 2)).withFields [f]) := by
      rw [onHeaderLine_field (by exact hstage) hvalid.1.line_ne_nil, onField_line _ hvalid.1]
    have hrest := ih (d := (d.counting (f.line.length + 2)).withFields [f]) hvalid.2 herror hstage
      (by simp only [counting, withFields]; omega)
    rw [ended_cons, List.append_assoc, List.cons_append, List.cons_append,
      feed_headerLine herror (by rw [hstage]; rfl) hvalid.1.line_oneLine (by omega) htaken, hrest]
    simp only [counting, withFields, List.foldl_cons, List.foldl_nil, Nat.add_assoc]

/-- Trailers are counted and dropped. -/
theorem feed_trailers {trailers : List Bytes} (hvalid : ∀ line ∈ trailers, line ≠ [] ∧ line.OneLine)
    (herror : d.error = none) (hstage : d.stage = .trailers)
    (hfits : d.counted + (ended trailers).length ≤ d.limit) (rest : Bytes) :
    d.feed (ended trailers ++ rest) = (d.counting (ended trailers).length).feed rest := by
  induction trailers generalizing d with
  | nil => rfl
  | cons line trailers ih =>
    rw [List.forall_mem_cons] at hvalid
    rw [length_ended_cons] at hfits ⊢
    have htaken : (d.counting (line.length + 2)).onHeaderLine line =
        .ok (d.counting (line.length + 2)) :=
      onHeaderLine_trailer (by exact hstage) hvalid.1.1
    have hrest := ih (d := d.counting (line.length + 2)) hvalid.2 herror hstage
      (by simp only [counting]; omega)
    rw [ended_cons, List.append_assoc, List.cons_append, List.cons_append,
      feed_headerLine herror (by rw [hstage]; rfl) hvalid.1.2 (by omega) htaken, hrest]
    simp only [counting, Nat.add_assoc]

/-- A chunk of known size and the line end after it are taken at one step. -/
theorem step_chunk (hstage : d.stage = .chunk bytes.length) (rest : Bytes) :
    d.step (bytes ++ 13 :: 10 :: rest) =
      .go { d.appendBody bytes with stage := .chunkSize } rest := by
  simp only [step, hstage]
  exact stepChunk_eq_go_iff.2 ⟨bytes, rfl, rfl, rfl⟩

theorem feed_chunk {c : WrittenChunk} (hvalid : c.Valid) (herror : d.error = none)
    (hstage : d.stage = .chunkSize) (rest : Bytes) :
    d.feed (c.encode ++ rest) = (d.appendBody c.data).feed rest := by
  have hlength : c.data.length ≠ 0 := fun h => hvalid.data_ne_nil (List.length_eq_zero_iff.1 h)
  have hsize := step_chunkSize hstage hvalid.size_valid.line_oneLine (c.data ++ 13 :: 10 :: rest)
  rw [onChunkSize_line d hvalid.size_valid hvalid.length_le, if_neg hlength] at hsize
  have hdata := step_chunk (d := { d with stage := .chunk c.data.length }) rfl rest
  have hencode : c.encode ++ rest = c.size.line ++ 13 :: 10 :: (c.data ++ 13 :: 10 :: rest) := by
    simp [WrittenChunk.encode]
  rw [hencode, feed_of_go herror (by rw [hstage]; exact Stage.noConfusion) hsize,
    feed_of_go (by exact herror) Stage.noConfusion hdata]
  simp only [appendBody, hstage]

theorem feed_chunks {chunks : List WrittenChunk} (hvalid : ∀ c ∈ chunks, c.Valid)
    (herror : d.error = none) (hstage : d.stage = .chunkSize) (rest : Bytes) :
    d.feed (chunks.flatMap (·.encode) ++ rest) =
      (d.appendBody (chunks.flatMap (·.data))).feed rest := by
  induction chunks generalizing d with
  | nil => simp [appendBody]
  | cons c chunks ih =>
    rw [List.forall_mem_cons] at hvalid
    rw [List.flatMap_cons, List.flatMap_cons, List.append_assoc,
      feed_chunk hvalid.1 herror hstage,
      ih (d := d.appendBody c.data) hvalid.2 herror hstage]
    simp only [appendBody, List.append_assoc]

end Decoder

/-! ### Looking fields up -/

/-- Of fields whose names are the same up to case the last one is read. -/
theorem WrittenField.get?_ofList (fields : List WrittenField) (name : Bytes) :
    (Table.ofList (fields.map fun f => (f.name, f.value)) : Fields).get? name =
      (fields.reverse.find? fun f => name.sameFolded f.name).map (·.value) := by
  rw [Table.get?_ofList, ← List.map_reverse, List.find?_map, Option.map_map]
  simp only [Function.comp_def, Bytes.compareFolded_eq_iff, Bool.decide_eq_true]

namespace WrittenRequest

variable {w : WrittenRequest} {name : Bytes}

theorem get?_head (w : WrittenRequest) (name : Bytes) :
    w.head.fields.get? name =
      (w.fields.reverse.find? fun f => name.sameFolded f.name).map (·.value) :=
  WrittenField.get?_ofList w.fields name

theorem mem_keys_head (w : WrittenRequest) (name : Bytes) :
    name ∈ w.head.fields.keys ↔
      (w.fields.find? fun f => name.sameFolded f.name).map (·.name) = some name := by
  rw [head, Table.mem_keys_ofList, List.find?_map, Option.map_map]
  simp only [Function.comp_def, Bytes.compareFolded_eq_iff, Bool.decide_eq_true]

theorem mem_fields {f : WrittenField} : f ∈ w.fields ↔ f = w.framing ∨ f ∈ w.front ++ w.back := by
  simp only [fields, List.mem_append, List.mem_cons]
  tauto

theorem get?_head_framing (hname : w.framing.name.sameFolded name)
    (hothers : ∀ f ∈ w.front ++ w.back, ¬ f.name.sameFolded name) :
    w.head.fields.get? name = some w.framing.value := by
  have hback : w.back.reverse.find? (fun f => name.sameFolded f.name) = none := by
    refine List.find?_eq_none.2 fun f hf hsame => hothers f ?_ (Bytes.sameFolded_comm.1 hsame)
    exact List.mem_append_right _ (List.mem_reverse.1 hf)
  have hframing : name.sameFolded w.framing.name = true := Bytes.sameFolded_comm.1 hname
  rw [get?_head, fields, List.reverse_append, List.reverse_cons, List.append_assoc,
    List.find?_append, hback, Option.none_or, List.singleton_append,
    List.find?_cons_of_pos (by exact hframing)]
  rfl

theorem get?_head_none (hnone : ∀ f ∈ w.fields, ¬ f.name.sameFolded name) :
    w.head.fields.get? name = none := by
  rw [get?_head, Option.map_eq_none_iff]
  exact List.find?_eq_none.2 fun f hf hsame =>
    hnone f (List.mem_reverse.1 hf) (Bytes.sameFolded_comm.1 hsame)

end WrittenRequest

namespace Decoder

variable {d : Decoder} {bytes : Bytes} {limit : Nat} {w : WrittenRequest}

/-- The decoder that has read the request line. -/
def atFields (limit : Nat) (w : WrittenRequest) : Decoder where
  limit := limit
  stage := .fields
  request := { (({} : Request).withToken w.token).withTarget w.target with version := w.version }
  counted := w.requestLine.length + 2

/-- The decoder that has read all of a head but what its end decides. -/
def atFieldsEnd (limit : Nat) (w : WrittenRequest) : Decoder where
  limit := limit
  stage := .fields
  request := w.head
  counted := (ended w.headLines).length

theorem length_headLines (w : WrittenRequest) :
    (ended w.headLines).length =
      w.requestLine.length + 2 + (ended (w.fields.map (·.line))).length + 2 := by
  rw [WrittenRequest.headLines, length_ended_cons, ended_append, List.length_append]
  rfl

theorem length_headLines_le (h : w.Valid limit) : (ended w.headLines).length ≤ limit := by
  have hfits := h.fits
  rw [WrittenRequest.headerLength, ended_append, List.length_append] at hfits
  omega

theorem onHeaderLine_requestLine (h : w.Valid limit) :
    (({ limit } : Decoder).counting (w.requestLine.length + 2)).onHeaderLine w.requestLine =
      .ok (atFields limit w) := by
  have hline := onRequestLine_line (({ limit } : Decoder).counting (w.requestLine.length + 2)) h
  simpa only [onHeaderLine, counting, atFields, Nat.zero_add] using hline

theorem counting_withFields (limit : Nat) (w : WrittenRequest) :
    (((atFields limit w).counting (ended (w.fields.map (·.line))).length).withFields
      w.fields).counting 2 = atFieldsEnd limit w := by
  simp only [counting, withFields, atFields, atFieldsEnd, length_headLines, WrittenRequest.head,
    Table.ofList, List.foldl_map]
  rfl

/-- A head is read up to what its end decides. -/
theorem feed_head (h : w.Valid limit) {d' : Decoder}
    (hend : (atFieldsEnd limit w).onFieldsEnd = .ok d') (rest : Bytes) :
    ({ limit } : Decoder).feed (ended w.headLines ++ rest) = d'.feed rest := by
  have hlines : ended w.headLines ++ rest = w.requestLine ++
      13 :: 10 :: (ended (w.fields.map (·.line)) ++ 13 :: 10 :: rest) := by
    simp [WrittenRequest.headLines, ended]
  have hfits := length_headLines_le h
  rw [length_headLines] at hfits
  have hfields := feed_fields (d := atFields limit w) h.fields_valid rfl rfl
    (by simp only [atFields]; omega) (13 :: 10 :: rest)
  have hstep := step_fieldsEnd
    (d := ((atFields limit w).counting (ended (w.fields.map (·.line))).length).withFields w.fields)
    rfl (by simp only [atFields, counting, withFields]; omega) rest
  rw [counting_withFields, hend] at hstep
  rw [hlines, feed_headerLine rfl rfl h.requestLine_oneLine (by simp only; omega)
    (onHeaderLine_requestLine h), hfields]
  exact feed_of_go rfl Stage.noConfusion hstep

/-- The decoder that has completed the request. -/
def completed (limit : Nat) (w : WrittenRequest) : Decoder where
  limit := limit
  stage := .complete
  request := { w.head with body := w.body.bytes }
  counted := w.headerLength

theorem feed_sized (h : w.Valid limit) (hbody : w.body = .sized bytes) (rest : Bytes) :
    ({ limit } : Decoder).feed (w.encode ++ rest) = ⟨.complete, completed limit w, rest⟩ := by
  obtain ⟨hname, hvalue⟩ : w.framing.name.sameFolded "Content-Length" ∧
      Denotes 10 w.framing.value bytes.length := by
    have hannounced := h.announced
    rwa [hbody] at hannounced
  have hlt : bytes.length < 2 ^ 64 := by
    have hvalid := h.body_valid
    rwa [hbody] at hvalid
  have hlength := WrittenRequest.get?_head_framing hname fun f hf => (h.others f hf).1
  -- No field announces chunks: the framing field does not, and the others may not.
  have hencoding : w.head.fields.get? "Transfer-Encoding" = none := by
    refine WrittenRequest.get?_head_none fun f hf => ?_
    rcases WrittenRequest.mem_fields.1 hf with rfl | hf
    · rw [Bytes.sameFolded_iff, Bytes.sameFolded_iff.1 hname]
      decide
    · exact (h.others f hf).2
  have hchunked : (atFieldsEnd limit w).request.isChunked = false := by
    rw [atFieldsEnd, Request.isChunked, Request.field, hencoding]
    decide
  have hcount : Numeral.count 10 ((atFieldsEnd limit w).request.field "Content-Length").trim =
      some bytes.length := by
    rw [atFieldsEnd, Request.field, hlength, Option.getD_some, hvalue.trim_eq,
      Numeral.count_ten_eq_some_iff, hvalue.toNul_eq]
    exact ⟨hvalue, hlt⟩
  have hend := onFieldsEnd_of_count (d := atFieldsEnd limit w) hchunked
    (by rw [atFieldsEnd, Request.hasField, Table.contains, hlength]; rfl) hcount
  have hencode : w.encode ++ rest = ended w.headLines ++ (bytes ++ rest) := by
    rw [WrittenRequest.encode, hbody, WrittenBody.encode, List.append_assoc]
  have hfits : ¬ (bytes ++ rest).length < bytes.length := by simp
  rw [hencode, feed_head h hend, feed_of_length (d := atFieldsEnd limit w) rfl, takeBody,
    if_neg hfits, List.take_left, List.drop_left]
  simp only [completed, appendBody, atFieldsEnd, WrittenRequest.headerLength, hbody,
    WrittenBody.trailerLines, WrittenBody.bytes, List.append_nil]
  rfl

/-- The last size, the trailers and the empty line behind them. -/
theorem feed_last {last : WrittenSize} {trailers : List Bytes} (hlast : last.Valid 0)
    (htrailers : ∀ line ∈ trailers, line ≠ [] ∧ line.OneLine) (herror : d.error = none)
    (hstage : d.stage = .chunkSize)
    (hfits : d.counted + (ended (trailers ++ [[]])).length ≤ d.limit) (rest : Bytes) :
    d.feed (last.line ++ 13 :: 10 :: ended (trailers ++ [[]]) ++ rest) =
      ⟨.complete, { d.counting (ended (trailers ++ [[]])).length with stage := .complete },
        rest⟩ := by
  have hlength : (ended (trailers ++ [[]])).length = (ended trailers).length + 2 := by
    rw [ended_append, List.length_append]
    rfl
  have hlines : last.line ++ 13 :: 10 :: ended (trailers ++ [[]]) ++ rest =
      last.line ++ 13 :: 10 :: (ended trailers ++ 13 :: 10 :: rest) := by
    simp [ended]
  have hsize := step_chunkSize hstage hlast.line_oneLine (ended trailers ++ 13 :: 10 :: rest)
  rw [onChunkSize_line d hlast (Nat.zero_le _), if_pos rfl] at hsize
  rw [hlength] at hfits ⊢
  have htrailer := feed_trailers (d := { d with stage := .trailers }) htrailers herror rfl
    (by simp only; omega) (13 :: 10 :: rest)
  -- The empty line behind the trailers ends the request.
  have hempty :
      (({ d with stage := .trailers } : Decoder).counting (ended trailers).length).feed
          (13 :: 10 :: rest) =
        ({ d.counting ((ended trailers).length + 2) with stage := .complete } : Decoder).feed
          rest :=
    feed_headerLine
      (d := ({ d with stage := .trailers } : Decoder).counting (ended trailers).length)
      herror rfl Bytes.oneLine_nil (by simp only [counting, List.length_nil]; omega) rfl rest
  rw [hlines, feed_of_go herror (by rw [hstage]; exact Stage.noConfusion) hsize, htrailer, hempty]
  exact feed_of_complete (by exact herror) rfl rest

theorem feed_chunked (h : w.Valid limit) {chunks : List WrittenChunk} {last : WrittenSize}
    {trailers : List Bytes} (hbody : w.body = .chunked chunks last trailers) (rest : Bytes) :
    ({ limit } : Decoder).feed (w.encode ++ rest) = ⟨.complete, completed limit w, rest⟩ := by
  obtain ⟨hname, hvalue⟩ : w.framing.name.sameFolded "Transfer-Encoding" ∧
      w.framing.value.sameFolded "chunked" := by
    have hannounced := h.announced
    rwa [hbody] at hannounced
  obtain ⟨hchunks, hlast, htrailers⟩ : (∀ c ∈ chunks, c.Valid) ∧ last.Valid 0 ∧
      ∀ line ∈ trailers, line ≠ [] ∧ line.OneLine := by
    have hvalid := h.body_valid
    rwa [hbody] at hvalid
  have hencoding := WrittenRequest.get?_head_framing hname fun f hf => (h.others f hf).2
  have hchunked : (atFieldsEnd limit w).request.isChunked = true := by
    rw [atFieldsEnd, Request.isChunked, Request.field, hencoding, Option.getD_some,
      Bytes.sameFolded_iff.1 hvalue]
    decide
  have hend : (atFieldsEnd limit w).onFieldsEnd =
      .ok { atFieldsEnd limit w with stage := .chunkSize } := by
    rw [onFieldsEnd, if_pos (by exact hchunked)]
  have hencode : w.encode ++ rest = ended w.headLines ++ (chunks.flatMap (·.encode) ++
      (last.line ++ 13 :: 10 :: ended (trailers ++ [[]]) ++ rest)) := by
    simp [WrittenRequest.encode, hbody, WrittenBody.encode]
  have hfits : (ended w.headLines).length + (ended (trailers ++ [[]])).length ≤ limit := by
    have hfits := h.fits
    rwa [WrittenRequest.headerLength, hbody, ended_append, List.length_append] at hfits
  rw [hencode, feed_head h hend,
    feed_chunks (d := { atFieldsEnd limit w with stage := .chunkSize }) hchunks rfl rfl,
    feed_last hlast htrailers rfl rfl hfits]
  simp only [completed, appendBody, counting, atFieldsEnd, WrittenRequest.headerLength, hbody,
    WrittenBody.trailerLines, WrittenBody.bytes, ended_append, List.length_append]
  rfl

/-- What was written is read back, and the bytes behind it are left. -/
theorem feed_encode (h : w.Valid limit) (rest : Bytes) :
    ({ limit } : Decoder).feed (w.encode ++ rest) = ⟨.complete, completed limit w, rest⟩ := by
  cases hbody : w.body with
  | sized bytes => exact feed_sized h hbody rest
  | chunked chunks last trailers => exact feed_chunked h hbody rest

theorem readAs_completed (limit : Nat) (w : WrittenRequest) :
    w.ReadAs (completed limit w).request where
  token_eq := rfl
  method_eq := rfl
  target_eq := List.takeWhile_append_dropWhile
  version_eq := rfl
  body_eq := rfl
  field_eq := w.get?_head
  mem_keys_iff := w.mem_keys_head
  sorted := Table.sorted _

/-! ### One request after the other -/

/-- Feeds the decoder so many times and takes a request each time, if one is complete
    each time. -/
def takeEach : Nat → Decoder → Bytes → Option (List Request × Decoder × Bytes)
  | 0, d, bytes => some ([], d, bytes)
  | n + 1, d, bytes =>
    match d.feed bytes with
    | ⟨.complete, d', rest⟩ =>
      (takeEach n d'.reset rest).map fun taken => (d'.request :: taken.1, taken.2)
    | _ => none

/-- Requests that are written one behind the other, each in its own way and within the
    limit, are taken off the bytes one after the other: they are the requests that were
    written, and the bytes behind them are left to a decoder as good as new. -/
theorem takeEach_encode (limit : Nat) (ws : List WrittenRequest) (h : ∀ w ∈ ws, w.Valid limit)
    (rest : Bytes) :
    ∃ requests, takeEach ws.length { limit } (ws.flatMap (·.encode) ++ rest) =
        some (requests, { limit }, rest) ∧
      List.Forall₂ WrittenRequest.ReadAs ws requests := by
  induction ws with
  | nil => exact ⟨[], rfl, .nil⟩
  | cons w ws ih =>
    rw [List.forall_mem_cons] at h
    obtain ⟨requests, htaken, hread⟩ := ih h.2
    refine ⟨(completed limit w).request :: requests, ?_, .cons (readAs_completed limit w) hread⟩
    rw [List.flatMap_cons, List.append_assoc, List.length_cons, takeEach, feed_encode h.1]
    have hreset : (completed limit w).reset = { limit } := rfl
    simp only [hreset, htaken, Option.map_some]

/-- A body of four bytes, of a line end and what looks like another request. -/
def writtenSized : WrittenRequest where
  token := "PUT"
  target := "/a?b"
  front := [{ name := "Host", value := "x y", before := " \t", after := "\t" }]
  framing := { name := "content-length", value := "4", before := " " }
  body := .sized "\r\nGE"

/-- A chunk, with a zero in front of its size and an extension behind it, and a trailer. -/
def writtenChunked : WrittenRequest where
  token := "POST"
  target := "/c"
  version := .http10
  framing := { name := "Transfer-Encoding", value := "Chunked" }
  back := [{ name := "host", value := "" }, { name := "Host", value := "z" }]
  body := .chunked [⟨⟨"0A", ";x=1"⟩, "0123456789"⟩] ⟨"00", []⟩ ["T: t"]

theorem writtenSized_valid : writtenSized.Valid 81 where
  token_ne_nil := by decide
  token_upper := by decide +kernel
  target_ne_nil := by decide
  blank_not_mem := by decide
  target_oneLine := by decide
  version_ne := by decide
  fields_valid := by
    simp only [writtenSized, WrittenRequest.fields, List.forall_mem_cons, List.cons_append,
      List.nil_append, List.not_mem_nil, false_imp_iff, implies_true, and_true]
    constructor <;>
      exact ⟨by decide, by decide, by decide, by decide, by decide +kernel, by decide +kernel⟩
  others := by decide
  announced := ⟨by decide, by decide +kernel⟩
  body_valid := by
    rw [writtenSized, WrittenBody.Valid]
    decide
  fits := by decide

theorem writtenChunked_valid : writtenChunked.Valid 81 where
  token_ne_nil := by decide
  token_upper := by decide +kernel
  target_ne_nil := by decide
  blank_not_mem := by decide
  target_oneLine := by decide
  version_ne := by decide
  fields_valid := by
    simp only [writtenChunked, WrittenRequest.fields, List.forall_mem_cons, List.nil_append,
      List.not_mem_nil, false_imp_iff, implies_true, and_true]
    refine ⟨?_, ?_, ?_⟩ <;>
      exact ⟨by decide, by decide, by decide, by decide, by decide +kernel, by decide +kernel⟩
  others := by decide
  announced := ⟨by decide, by decide⟩
  body_valid := by
    refine ⟨?_, ⟨by decide +kernel, by decide +kernel, by decide⟩, by decide⟩
    rw [List.forall_mem_singleton]
    exact ⟨by decide, ⟨by decide +kernel, by decide +kernel, by decide⟩, by decide⟩
  fits := by decide

theorem takeEach_encode_pair :
    (∀ w ∈ [writtenSized, writtenChunked], w.Valid 81) ∧
      ∃ requests,
        takeEach 2 ({ limit := 81 } : Decoder)
            ([writtenSized, writtenChunked].flatMap (·.encode) ++ ("GET" : Bytes)) =
          some (requests, ({ limit := 81 } : Decoder), ("GET" : Bytes)) ∧
        List.Forall₂ WrittenRequest.ReadAs [writtenSized, writtenChunked] requests := by
  have hvalid : ∀ w ∈ [writtenSized, writtenChunked], w.Valid 81 := by
    rw [List.forall_mem_cons, List.forall_mem_singleton]
    exact ⟨writtenSized_valid, writtenChunked_valid⟩
  exact ⟨hvalid, takeEach_encode 81 [writtenSized, writtenChunked] hvalid "GET"⟩

end Decoder

end PageServer.Http
