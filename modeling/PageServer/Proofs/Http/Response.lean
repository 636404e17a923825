import PageServer.Proofs.Http.Conversation
import PageServer.Proofs.Numeral
import PageServer.Proofs.Table

/-!
# Responses on the wire

A response is built by settings, in any order and as often as one likes
(`Response.build`). The length of its content is told by a field that is stored with
the content, or else written in addition, so that two places have to agree on it with
the content itself. `Response.Tidy` is what every setting keeps, and from it follows that
the response is *self-delimiting*: its first empty line ends the head, and one field
of the head tells how long the content is (`Response.SelfDelimiting`).

A client that goes by that field (`Reader.read`) takes responses that follow each other
off the bytes one by one (`Response.build_selfDelimiting`), whatever their contents hold.
-/

namespace PageServer.Http

open Numeral (Denotes)

/-! ### Settings -/

/-- One change of a response. -/
inductive Setting
  /-- A status, with its usual reason. -/
  | status (status : Int)
  | reason (text : Bytes)
  | version (version : Version)
  | close (close : Bool)
  | type (value : Bytes)
  | field (name value : Bytes)
  /-- A content, be it buffered or streamed. -/
  | content (content : Content)

namespace Setting

/-- The texts of the setting are without line ends. -/
def Unbroken : Setting → Prop
  | .reason text => text.Unbroken
  | .type value => value.Unbroken
  | .field name value => name.Unbroken ∧ value.Unbroken
  | _ => True

/-- The texts of the setting are without line ends, and the length of the content is
    left to the response. -/
def Plain : Setting → Prop
  | .reason text => text.Unbroken
  | .type value => value.Unbroken
  | .field name value =>
    name.Unbroken ∧ value.Unbroken ∧ ¬ name.sameFolded "Content-Length"
  | _ => True

/-- The content that is set. -/
def content? : Setting → Option Content
  | .content c => some c
  | _ => none

end Setting

/-- The content that is set last. -/
def lastContent (settings : List Setting) : Content :=
  (settings.reverse.findSome? Setting.content?).getD (.buffered [])

namespace Response

/-- The response with a setting. -/
def set (r : Response) : Setting → Response
  | .status status => r.withStatus status
  | .reason text => { r with reason := text }
  | .version version => { r with version }
  | .close close => { r with close }
  | .type value => r.withType value
  | .field name value => r.withField name value
  | .content content => r.withContent content

/-- The response that settings build up, one after the other. -/
def build (settings : List Setting) : Response := settings.foldl set {}

theorem build_snoc (settings : List Setting) (s : Setting) :
    build (settings ++ [s]) = (build settings).set s := by
  simp only [build, List.foldl_append, List.foldl_cons, List.foldl_nil]

theorem content_set (r : Response) (s : Setting) :
    (r.set s).content = s.content?.getD r.content := by
  cases s <;> rfl

/-- Of all contents the last one counts. -/
theorem content_build (settings : List Setting) :
    (build settings).content = lastContent settings := by
  induction settings using List.reverseRecOn with
  | nil => rfl
  | append_singleton settings s ih =>
    rw [build_snoc, content_set, ih, lastContent, lastContent, List.reverse_append,
      List.reverse_singleton, List.singleton_append, List.findSome?_cons]
    cases s.content? <;> rfl

/-! ### What settings keep -/

/-- There are no line ends in a response but those that it is written with. -/
structure Unbroken (r : Response) : Prop where
  reason_unbroken : r.reason.Unbroken
  fields_unbroken : ∀ f ∈ r.fields.entries, f.1.Unbroken ∧ f.2.Unbroken

/-- A name that can be stored: only one spelling of it tells the length. -/
def IsName (name : Bytes) : Prop :=
  name.Unbroken ∧ (name.sameFolded "Content-Length" → name = "Content-Length")

instance (name : Bytes) : Decidable (IsName name) :=
  inferInstanceAs
    (Decidable (name.Unbroken ∧ (name.sameFolded "Content-Length" → name = "Content-Length")))

/-- What is true of a response, whatever was set. -/
structure Tidy (r : Response) : Prop where
  reason_unbroken : r.reason.Unbroken
  fields_plain : ∀ f ∈ r.fields.entries, IsName f.1 ∧ f.2.Unbroken
  /-- If a length is stored, it is that of the content. -/
  length_eq : ∀ value ∈ r.fields.get? "Content-Length",
    value = Numeral.ofNat r.content.bytes.length

variable {r : Response}

theorem unbroken_phrase (status : Int) : (phrase status).Unbroken := by
  simp only [phrase]
  split_ifs <;> decide

theorem Unbroken.withField (h : r.Unbroken) {name value : Bytes} (hname : name.Unbroken)
    (hvalue : value.Unbroken) : (r.withField name value).Unbroken where
  reason_unbroken := h.reason_unbroken
  fields_unbroken := Table.forall_mem_insert h.fields_unbroken hname hvalue

theorem Unbroken.set (h : r.Unbroken) {s : Setting} (hs : s.Unbroken) : (r.set s).Unbroken := by
  cases s with
  | status status => exact { h with reason_unbroken := unbroken_phrase status }
  | reason text => exact { h with reason_unbroken := hs }
  | version version => exact { h with }
  | close close => exact { h with }
  | type type => exact h.withField (by decide) hs
  | field name value => exact h.withField hs.1 hs.2
  | content content =>
    have hcontent : Unbroken { r with content } := ⟨h.reason_unbroken, h.fields_unbroken⟩
    exact hcontent.withField (by decide) (Numeral.denotes_ofNat _).unbroken

theorem unbroken_build {settings : List Setting} (h : ∀ s ∈ settings, s.Unbroken) :
    (build settings).Unbroken := by
  induction settings using List.reverseRecOn with
  | nil => exact ⟨by decide, fun _ hf => absurd hf List.not_mem_nil⟩
  | append_singleton settings s ih =>
    rw [List.forall_mem_append, List.forall_mem_singleton] at h
    rw [build_snoc]
    exact (ih h.1).set h.2

theorem Tidy.unbroken (h : r.Tidy) : r.Unbroken where
  reason_unbroken := h.reason_unbroken
  fields_unbroken f hf := ⟨(h.fields_plain f hf).1.1, (h.fields_plain f hf).2⟩

theorem Tidy.withField (h : r.Tidy) {name value : Bytes} (hname : name.Unbroken)
    (hvalue : value.Unbroken) (hlength : ¬ name.sameFolded "Content-Length") :
    (r.withField name value).Tidy where
  reason_unbroken := h.reason_unbroken
  fields_plain := Table.forall_mem_insert h.fields_plain
    ⟨hname, fun hsame => absurd hsame hlength⟩ hvalue
  length_eq := by
    have hne : compare ("Content-Length" : Bytes) name ≠ .eq := fun heq => by
      rw [← Std.LawfulEqCmp.eq_of_compare heq] at hlength
      exact hlength (by decide)
    simp only [Response.withField, Table.get?_insert, if_neg hne]
    exact h.length_eq

theorem Tidy.withContent (h : r.Tidy) (content : Content) : (r.withContent content).Tidy where
  reason_unbroken := h.reason_unbroken
  fields_plain := Table.forall_mem_insert h.fields_plain
    ⟨by decide, fun _ => rfl⟩ (Numeral.denotes_ofNat _).unbroken
  length_eq := by
    simp only [Response.withContent, Response.withField, Table.get?_insert,
      Std.ReflCmp.compare_self, if_true, Option.mem_some_iff]
    exact fun _ heq => heq.symm

theorem Tidy.set (h : r.Tidy) {s : Setting} (hs : s.Plain) : (r.set s).Tidy := by
  cases s with
  | status status => exact { h with reason_unbroken := unbroken_phrase status }
  | reason text => exact { h with reason_unbroken := hs }
  | version version => exact { h with }
  | close close => exact { h with }
  | type type => exact h.withField (by decide) hs (by decide)
  | field name value => exact h.withField hs.1 hs.2.1 hs.2.2
  | content content => exact h.withContent content

theorem tidy_build {settings : List Setting} (h : ∀ s ∈ settings, s.Plain) :
    (build settings).Tidy := by
  induction settings using List.reverseRecOn with
  | nil =>
    exact ⟨by decide, fun _ hf => absurd hf List.not_mem_nil,
      fun _ h => nomatch h⟩
  | append_singleton settings s ih =>
    rw [List.forall_mem_append, List.forall_mem_singleton] at h
    rw [build_snoc]
    exact (ih h.1).set h.2

/-! ### Fields of the head -/

/-- The first line. -/
def statusText (r : Response) : Bytes :=
  (if r.version = .http10 then "HTTP/1.0 " else "HTTP/1.1 ") ++ Numeral.ofInt r.status ++ " " ++
    r.reason

/-- The value of the field that tells what becomes of the connection. -/
def connectionText (r : Response) : Bytes := if r.close then "close" else "keep-alive"

/-- The stored fields that are written: all but `Connection` in any case. -/
def storedFields (r : Response) : List (Bytes × Bytes) :=
  r.fields.entries.filter fun f => !f.1.sameFolded "Connection"

/-- The fields in addition to the stored ones. -/
def defaults (r : Response) : List (Bytes × Bytes) :=
  (if r.fields.contains "Content-Type" then []
    else [(("Content-Type" : Bytes), ("text/plain" : Bytes))]) ++
  if r.fields.contains "Content-Length" then []
  else [(("Content-Length" : Bytes), Numeral.ofNat r.content.bytes.length)]

/-- All fields, as they are written. -/
def written (r : Response) : List (Bytes × Bytes) :=
  r.storedFields ++ r.defaults ++ [(("Connection" : Bytes), r.connectionText)]

/-- A field as a text. -/
def fieldText (f : Bytes × Bytes) : Bytes := f.1 ++ ": " ++ f.2

theorem fieldLine_eq (name value : Bytes) :
    fieldLine name value = Bytes.ended [fieldText (name, value)] :=
  (List.append_nil _).symm

/-- The lines of the head but for the first one. -/
def fieldLines (r : Response) : List Bytes := r.written.map fieldText

theorem ended_storedFields (r : Response) :
    Bytes.ended (r.storedFields.map fieldText) = r.fields.entries.flatMap fun f =>
      if f.1.sameFolded "Connection" then [] else fieldLine f.1 f.2 := by
  rw [storedFields]
  induction r.fields.entries with
  | nil => rfl
  | cons f entries ih =>
    rw [List.flatMap_cons, ← ih]
    by_cases h : f.1.sameFolded "Connection"
    · rw [List.filter_cons_of_neg (by simp [h]), if_pos h, List.nil_append]
    · rw [List.filter_cons_of_pos (by simp [h]), if_neg h, fieldLine_eq, ← Bytes.ended_append]
      rfl

theorem ended_defaults (r : Response) :
    Bytes.ended (r.defaults.map fieldText) =
      (if r.fields.contains "Content-Type" then [] else fieldLine "Content-Type" "text/plain") ++
        if r.fields.contains "Content-Length" then []
        else fieldLine "Content-Length" (Numeral.ofNat r.content.bytes.length) := by
  rw [defaults, List.map_append, Bytes.ended_append]
  rw [fieldLine_eq, fieldLine_eq]
  congr 1 <;> split_ifs <;> rfl

/-- The head is its lines and an empty one. -/
theorem head_eq (r : Response) :
    r.head = r.statusText ++ 13 :: 10 :: (Bytes.ended r.fieldLines ++ [13, 10]) := by
  have hstatus : r.statusLine = r.statusText ++ [13, 10] := rfl
  rw [fieldLines, written, List.map_append, List.map_append, Bytes.ended_append, Bytes.ended_append,
    ended_storedFields, ended_defaults, List.map_singleton, ← fieldLine_eq, head, hstatus,
    connectionText]
  simp only [List.append_assoc, List.cons_append, List.nil_append]
  rfl

/-! ### What the fields tell -/

/-- The names of the fields that a response writes itself. -/
def ownNames : List Bytes := ["Content-Type", "Content-Length", "Connection"]

/-- A written field is a stored one, or one of those that the response writes itself. -/
theorem mem_written {f : Bytes × Bytes} (hf : f ∈ r.written) :
    f ∈ r.fields.entries ∨ f.1 ∈ ownNames ∧ f.2.Unbroken := by
  rcases List.mem_append.1 hf with hf | hf
  · rcases List.mem_append.1 hf with hf | hf
    · exact .inl (List.mem_of_mem_filter hf)
    · refine .inr ?_
      rcases List.mem_append.1 hf with hf | hf
      · split at hf
        · cases hf
        · obtain rfl := List.mem_singleton.1 hf
          decide
      · split at hf
        · cases hf
        · obtain rfl := List.mem_singleton.1 hf
          exact ⟨.tail _ (.head _), (Numeral.denotes_ofNat _).unbroken⟩
  · obtain rfl := List.mem_singleton.1 hf
    refine .inr ⟨.tail _ (.tail _ (.head _)), ?_⟩
    change r.connectionText.Unbroken
    rw [connectionText]
    split_ifs <;> decide

theorem Unbroken.written_unbroken (h : r.Unbroken) :
    ∀ f ∈ r.written, f.1.Unbroken ∧ f.2.Unbroken := by
  intro f hf
  rcases mem_written hf with hf | ⟨hname, hvalue⟩
  · exact h.fields_unbroken f hf
  · have hnames : ∀ name ∈ ownNames, name.Unbroken := by decide
    exact ⟨hnames f.1 hname, hvalue⟩

theorem Tidy.written_isName (h : r.Tidy) : ∀ f ∈ r.written, IsName f.1 := by
  intro f hf
  rcases mem_written hf with hf | ⟨hname, -⟩
  · exact (h.fields_plain f hf).1
  · have hnames : ∀ name ∈ ownNames, IsName name := by decide
    exact hnames f.1 hname

theorem Tidy.stored_length (h : r.Tidy) :
    r.storedFields.filter (·.1.sameFolded "Content-Length") =
      if r.fields.contains "Content-Length" then
        [(("Content-Length" : Bytes), Numeral.ofNat r.content.bytes.length)]
      else [] := by
  -- Among the stored names only one spelling is that of a length, and it is stored once.
  have hname : ∀ f ∈ r.fields.entries,
      (f.1.sameFolded "Content-Length" && !f.1.sameFolded "Connection") =
        decide (f.1 = "Content-Length") := by
    intro f hf
    by_cases hsame : f.1.sameFolded "Content-Length"
    · rw [((h.fields_plain f hf).1.2 hsame)]
      decide
    · have hne : f.1 ≠ "Content-Length" := fun heq => hsame (by rw [heq]; decide)
      simp [hsame, hne]
  rw [storedFields, List.filter_filter, List.filter_congr hname, Table.filter_key,
    Table.contains]
  cases hstored : r.fields.get? "Content-Length" with
  | none => rfl
  | some value =>
    rw [h.length_eq value hstored]
    rfl

/-- There is one field that tells the length, be it stored or not. -/
theorem Tidy.written_length (h : r.Tidy) :
    r.written.filter (·.1.sameFolded "Content-Length") =
      [(("Content-Length" : Bytes), Numeral.ofNat r.content.bytes.length)] := by
  have hdefaults : r.defaults.filter (·.1.sameFolded "Content-Length") =
      if r.fields.contains "Content-Length" then []
      else [(("Content-Length" : Bytes), Numeral.ofNat r.content.bytes.length)] := by
    rw [defaults]
    split_ifs <;> rfl
  have hconnection : [(("Connection" : Bytes), r.connectionText)].filter
      (·.1.sameFolded "Content-Length") = [] := rfl
  -- The field is added exactly if it is not stored.
  rw [written, List.filter_append, List.filter_append, h.stored_length, hdefaults, hconnection]
  split_ifs <;> rfl

/-- There is one field that tells what becomes of the connection. -/
theorem written_connection (r : Response) :
    r.written.filter (·.1.sameFolded "Connection") =
      [(("Connection" : Bytes), r.connectionText)] := by
  have hstored : r.storedFields.filter (·.1.sameFolded "Connection") = [] :=
    List.filter_eq_nil_iff.2 fun f hf => by
      simpa using (List.mem_filter.1 hf).2
  have hdefaults : r.defaults.filter (·.1.sameFolded "Connection") = [] := by
    rw [defaults]
    split_ifs <;> rfl
  rw [written, List.filter_append, List.filter_append, hstored, hdefaults]
  rfl

end Response

/-! ### Reading responses -/

namespace Reader

/-- What is before the first empty line, and what is after it. -/
def cut (bytes : Bytes) : Option (Bytes × Bytes) :=
  (Bytes.find? [13, 10, 13, 10] bytes).map fun i => (bytes.take i, bytes.drop (i + 4))

/-- The number that the text is a numeral of. -/
def number? (s : Bytes) : Option Nat :=
  if Denotes 10 s (Numeral.value 10 s) then some (Numeral.value 10 s) else none

/-- The name and the value of a field. -/
def field? (line : Bytes) : Option (Bytes × Bytes) :=
  match line.break1 Byte.colon with
  | (_, none) => none
  | (name, some value) => some (name, value.trim)

/-- The length that a line tells: the number of a `Content-Length` in any case. -/
def length? (line : Bytes) : Option Nat :=
  match field? line with
  | none => none
  | some (name, value) => if name.sameFolded "Content-Length" then number? value else none

/-- Reads a response: its content, which has as many bytes as one line of the head tells,
    and what follows. -/
def read (bytes : Bytes) : Option (Bytes × Bytes) :=
  match cut bytes with
  | none => none
  | some (head, rest) =>
    match head.lines.tail.filterMap length? with
    | [n] => if n ≤ rest.length then some (rest.take n, rest.drop n) else none
    | _ => none

/-- Reads so many responses, one after the other. -/
def readEach : Nat → Bytes → Option (List Bytes × Bytes)
  | 0, bytes => some ([], bytes)
  | n + 1, bytes =>
    match read bytes with
    | none => none
    | some (content, rest) => (readEach n rest).map fun more => (content :: more.1, more.2)

variable {line s t : Bytes}

theorem number?_of_denotes {n : Nat} (h : Denotes 10 s n) : number? s = some n := by
  obtain rfl := (Numeral.denotes_iff.1 h).2.2
  rw [number?, if_pos h]

theorem number?_of_colon_mem (h : Byte.colon ∈ s) : number? s = none := by
  rw [number?, if_neg fun hdenotes => ?_]
  exact absurd ((Numeral.denotes_iff.1 hdenotes).2.1 _ h) (by decide)

/-- A field whose name has no colon is told apart. -/
theorem field?_fieldText {f : Bytes × Bytes} (h : Byte.colon ∉ f.1) :
    field? (Response.fieldText f) = some (f.1, f.2.trim) := by
  have htext : Response.fieldText f = f.1 ++ Byte.colon :: Byte.blank :: f.2 := by
    simp [Response.fieldText, ascii]
  have htrim : Bytes.trim (Byte.blank :: f.2) = f.2.trim := rfl
  rw [field?, htext, Bytes.break1_append h]
  simp only [htrim]

theorem length?_fieldText {f : Bytes × Bytes} (h : Response.IsName f.1) :
    length? (Response.fieldText f) =
      if f.1.sameFolded "Content-Length" then number? f.2.trim else none := by
  by_cases hcolon : Byte.colon ∈ f.1
  · -- What is behind the first colon has another one, so it is no number.
    obtain ⟨name, rest, hname, hfirst⟩ := List.eq_append_cons_of_mem hcolon
    have htext : Response.fieldText f =
        name ++ Byte.colon :: (rest ++ Byte.colon :: Byte.blank :: f.2) := by
      simp [Response.fieldText, hname, ascii]
    have hvalue : number? (Bytes.trim (rest ++ Byte.colon :: Byte.blank :: f.2)) = none :=
      number?_of_colon_mem (Bytes.mem_trim (by decide) (by simp))
    have hne : ¬ f.1.sameFolded "Content-Length" := fun hsame => by
      rw [h.2 hsame] at hcolon
      exact absurd hcolon (by decide)
    rw [length?, field?, htext, Bytes.break1_append hfirst, if_neg hne]
    simp only [hvalue, ite_self]
  · rw [length?, field?_fieldText hcolon]

theorem find?_emptyLine (h : line.OneLine) (t : Bytes) :
    Bytes.find? [13, 10, 13, 10] (line ++ 13 :: 10 :: t) =
      if [13, 10] <+: t then some line.length
      else (Bytes.find? [13, 10, 13, 10] t).map (· + (line.length + 2)) := by
  induction line with
  | nil =>
    have hfeed : Bytes.find? [13, 10, 13, 10] (10 :: t) =
        (Bytes.find? [13, 10, 13, 10] t).map (· + 1) := by
      rw [Bytes.find?_cons, if_neg (by simp [List.cons_prefix_cons])]
    have hstart : [13, 10, 13, 10] <+: 13 :: 10 :: t ↔ [13, 10] <+: t := by
      simp [List.cons_prefix_cons]
    rw [List.nil_append, Bytes.find?_cons, hfeed, Option.map_map]
    simp only [hstart]
    rfl
  | cons c line ih =>
    have hline := (Bytes.oneLine_cons.1 h).2
    -- The first line end is behind the line, so nothing is found before it.
    have hstart : ¬ [13, 10, 13, 10] <+: c :: (line ++ 13 :: 10 :: t) := fun hprefix =>
      h.not_end_first (List.cons_ne_nil c line) (10 :: t)
        ((List.prefix_append [13, 10] [13, 10]).trans hprefix)
    rw [List.cons_append, Bytes.find?_cons, if_neg hstart, ih hline]
    split_ifs
    · rfl
    · rw [Option.map_map]
      rfl

theorem cut_append (h : line.OneLine) (t : Bytes) :
    cut (line ++ 13 :: 10 :: t) =
      if [13, 10] <+: t then some (line, t.drop 2)
      else (cut t).map fun p => (line ++ 13 :: 10 :: p.1, p.2) := by
  rw [cut, find?_emptyLine h]
  split_ifs
  · simp only [Option.map_some, List.take_left, List.drop_length_add_append]
    rfl
  · rw [cut, Option.map_map, Option.map_map]
    congr 1
    funext i
    have hi : i + (line.length + 2) = line.length + (i + 2) := by omega
    simp only [Function.comp_apply, hi, Nat.add_assoc line.length, List.take_length_add_append,
      List.drop_length_add_append]
    rfl

/-- A head without empty lines is cut off behind its last line. -/
theorem cut_ended {lines : List Bytes} (h : line.OneLine)
    (hlines : ∀ l ∈ lines, l ≠ [] ∧ l.OneLine) (t : Bytes) :
    ∃ head, cut (line ++ 13 :: 10 :: (Bytes.ended lines ++ 13 :: 10 :: t)) = some (head, t) ∧
      head.lines = line :: lines := by
  induction lines generalizing line with
  | nil =>
    refine ⟨line, ?_, h.lines_eq⟩
    rw [cut_append h, if_pos (by simp [Bytes.ended])]
    rfl
  | cons next lines ih =>
    rw [List.forall_mem_cons] at hlines
    obtain ⟨head, hcut, hhead⟩ := ih hlines.1.2 hlines.2
    refine ⟨line ++ 13 :: 10 :: head, ?_, by rw [Bytes.lines_append h, hhead]⟩
    -- The next line is not empty, so the first empty line is the one behind it.
    have hnext := hlines.1.2.not_end_first hlines.1.1 (10 :: (Bytes.ended lines ++ 13 :: 10 :: t))
    rw [Bytes.ended_cons, List.append_assoc, List.cons_append, List.cons_append, cut_append h,
      if_neg hnext, hcut, Option.map_some]

end Reader

/-! ### Responses that end where their heads tell -/

namespace Response

open Reader

variable {r : Response}

/-- A response as its reader finds it. -/
structure SelfDelimiting (r : Response) : Prop where
  /-- Cut at its first empty line, it has the content behind the head, and the lines of
      the head are the status and the fields. -/
  cut_eq : ∃ head, cut r.bytes = some (head, r.content.bytes) ∧
    head.lines = r.statusText :: r.fieldLines
  /-- One field tells the length, -/
  length_eq : ∃ value, r.written.filter (·.1.sameFolded "Content-Length") =
    [(("Content-Length" : Bytes), value)] ∧ Denotes 10 value r.content.bytes.length
  /-- and one what becomes of the connection. -/
  connection_eq : r.written.filter (·.1.sameFolded "Connection") =
    [(("Connection" : Bytes), if r.close then ("close" : Bytes) else ("keep-alive" : Bytes))]
  /-- Fields whose names have no colon are told apart from their lines. -/
  field_eq : ∀ f ∈ r.written, Byte.colon ∉ f.1 → field? (fieldText f) = some (f.1, f.2.trim)
  /-- However it is sent, the same bytes are sent. -/
  pieces_eq : r.pieces.flatten = r.bytes
  sent_eq : ∀ (c : Connection) (request : Request), c.phase = .dispatched request →
    sentBytes (c.deliver r).value.2 = (r.for request).bytes

theorem Unbroken.statusText_oneLine (h : r.Unbroken) : r.statusText.OneLine := by
  have hversion : (ascii (if r.version = .http10 then "HTTP/1.0 " else "HTTP/1.1 ")).Unbroken := by
    split_ifs <;> decide
  have hblank : Bytes.Unbroken " " := by decide
  exact (((hversion.append (Numeral.unbroken_ofInt r.status)).append hblank).append
    h.reason_unbroken).oneLine

theorem Unbroken.fieldLines_oneLine (h : r.Unbroken) :
    ∀ line ∈ r.fieldLines, line ≠ [] ∧ line.OneLine := by
  intro line hline
  obtain ⟨f, hf, rfl⟩ := List.mem_map.1 hline
  have hplain := h.written_unbroken f hf
  have hcolon : Bytes.Unbroken ": " := by decide
  refine ⟨?_, ((hplain.1.append hcolon).append hplain.2).oneLine⟩
  exact List.append_ne_nil_of_left_ne_nil (List.append_ne_nil_of_right_ne_nil _ (by decide)) _

theorem Unbroken.cut_bytes (h : r.Unbroken) (rest : Bytes) :
    ∃ head, cut (r.bytes ++ rest) = some (head, r.content.bytes ++ rest) ∧
      head.lines = r.statusText :: r.fieldLines := by
  have hbytes : r.bytes ++ rest = r.statusText ++
      13 :: 10 :: (Bytes.ended r.fieldLines ++ 13 :: 10 :: (r.content.bytes ++ rest)) := by
    simp [bytes, head_eq]
  rw [hbytes]
  exact cut_ended h.statusText_oneLine h.fieldLines_oneLine (r.content.bytes ++ rest)

theorem Tidy.filterMap_length? (h : r.Tidy) :
    r.fieldLines.filterMap length? = [r.content.bytes.length] := by
  have htold : ∀ f ∈ r.written, (length? ∘ fieldText) f =
      if f.1.sameFolded "Content-Length" then number? f.2.trim else none := fun f hf =>
    length?_fieldText (h.written_isName f hf)
  have hnumber : number? (Numeral.ofNat r.content.bytes.length).trim =
      some r.content.bytes.length := by
    rw [(Numeral.denotes_ofNat _).trim_eq]
    exact number?_of_denotes (Numeral.denotes_ofNat _)
  rw [fieldLines, List.filterMap_map, List.filterMap_congr htold, ← List.filterMap_filter,
    h.written_length, List.filterMap_cons, hnumber]
  rfl

/-- What is sent is the response for the request, be its content buffered or streamed. -/
theorem sentBytes_deliver (r : Response) {c : Connection} {request : Request}
    (h : c.phase = .dispatched request) :
    sentBytes (c.deliver r).value.2 = (r.for request).bytes := by
  rw [Connection.deliver_eq h, Connection.delivered]
  split_ifs <;> (rw [sentBytes_append, sentBytes_sends]; simp [sentBytes])

theorem Tidy.selfDelimiting (h : r.Tidy) : r.SelfDelimiting where
  cut_eq := by simpa using h.unbroken.cut_bytes []
  length_eq := ⟨_, h.written_length, Numeral.denotes_ofNat _⟩
  connection_eq := r.written_connection
  field_eq _ _ := field?_fieldText
  pieces_eq := by
    rw [pieces, bytes]
    cases r.content <;> simp [Content.bytes]
  sent_eq _ _ := r.sentBytes_deliver

theorem Tidy.read_bytes (h : r.Tidy) (rest : Bytes) :
    read (r.bytes ++ rest) = some (r.content.bytes, rest) := by
  obtain ⟨head, hcut, hlines⟩ := h.unbroken.cut_bytes rest
  have hle : r.content.bytes.length ≤ (r.content.bytes ++ rest).length := by simp
  rw [Reader.read, hcut]
  simp only [hlines, List.tail_cons, h.filterMap_length?, if_pos hle, List.take_left,
    List.drop_left]

/-- A response ends where its head tells, in whatever order it was built, and what a
    client reads from responses that follow each other is the content that was set
    last in each of them. -/
theorem build_selfDelimiting (builds : List (List Setting))
    (h : ∀ settings ∈ builds, ∀ s ∈ settings, s.Plain) :
    (∀ settings ∈ builds, (build settings).content = lastContent settings ∧
      (build settings).SelfDelimiting) ∧
    ∀ rest,
      readEach builds.length
          (builds.flatMap (fun settings => (build settings).bytes) ++ rest) =
        some (builds.map fun settings => (lastContent settings).bytes, rest) := by
  refine ⟨fun settings hsettings =>
    ⟨content_build settings, (tidy_build (h settings hsettings)).selfDelimiting⟩, fun rest => ?_⟩
  induction builds with
  | nil => rfl
  | cons settings builds ih =>
    rw [List.forall_mem_cons] at h
    rw [List.flatMap_cons, List.append_assoc, List.length_cons, readEach,
      (tidy_build h.1).read_bytes]
    simp only [ih h.2, Option.map_some, List.map_cons, content_build]

/-- A response whose content, buffered at first and then streamed, looks like the start of
    the next response, and one without a content but with a field that looks like a
    length. -/
def twoBuilds : List (List Setting) :=
  [[.status 200, .content (.buffered "x"), .field "connection" "no", .type "a/b", .close true,
      .content (.streamed "\r\n\r\nHTTP/1.1")],
    [.field "Content-Length: 7" "", .reason "", .version .http10]]

theorem build_selfDelimiting_two :
    (∀ settings ∈ twoBuilds, ∀ s ∈ settings, s.Plain) ∧
      readEach 2 (twoBuilds.flatMap (fun settings => (build settings).bytes) ++ ("HTTP" : Bytes)) =
        some ([("\r\n\r\nHTTP/1.1" : Bytes), []], ("HTTP" : Bytes)) := by
  have hplain : ∀ settings ∈ twoBuilds, ∀ s ∈ settings, s.Plain := by
    simp only [twoBuilds, List.forall_mem_cons, List.not_mem_nil, false_imp_iff, implies_true,
      and_true, Setting.Plain]
    decide
  exact ⟨hplain, (build_selfDelimiting twoBuilds hplain).2 "HTTP"⟩

end Response

end PageServer.Http
