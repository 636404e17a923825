import PageServer.CommandLine
import PageServer.Proofs.Act
import PageServer.Proofs.Table
import PageServer.Proofs.Text
import Mathlib.Data.List.Forall2

/-!
# Settings written and loaded

A map from sections to keys to values is *written* as a settings text by lines of three
kinds (`Settings.Item`): headers, entries, and lines that say nothing. How a line may
be spelled (`Settings.Spells`) and how lines make up a text (`Settings.LinesOf`) is
laid down without the reader. What the entries of a text say, each under the header
before it, is told of their list: the last one at a place counts (`Settings.said`,
`Settings.lastAt`).

The reader takes every spelling of a line for what it spells
(`Settings.Spells.item_eq`), so a text that writes a map is loaded as that map, in the
place of what was there before, and each map has such a text (`Settings.load_written`).
A file that cannot be opened leaves the settings as they were. A directory can be opened,
though nothing can be read of it, so all settings are gone then (`Settings.not_always_kept`).
-/

namespace PageServer.Settings

/-! ### Names, keys and values -/

/-- There are only blanks in the text. -/
def Blank (s : Bytes) : Prop := ∀ b ∈ s, isBlank b

/-- A text within one line, without blanks at its ends. -/
structure Plain (s : Bytes) : Prop where
  not_mem : Byte.lineFeed ∉ s
  head : ∀ b ∈ s.head?, ¬ isBlank b
  last : ∀ b ∈ s.getLast?, ¬ isBlank b

/-- A text that can stand in front of `=` without being taken for something else. -/
structure IsKey (s : Bytes) : Prop extends Plain s where
  ne_nil : s ≠ []
  equals_not_mem : Byte.equals ∉ s
  head_ne : ∀ b ∈ s.head?, b ≠ 35 ∧ b ≠ Byte.semicolon ∧ b ≠ 91

instance (s : Bytes) : Decidable (Blank s) := decidable_of_iff (s.all isBlank) List.all_eq_true

instance (s : Bytes) : Decidable (Plain s) :=
  decidable_of_iff (Byte.lineFeed ∉ s ∧ s.head?.all (!isBlank ·) ∧ s.getLast?.all (!isBlank ·))
    ⟨fun ⟨h, hhead, hlast⟩ => ⟨h, by simpa [Option.all_eq_true] using hhead,
        by simpa [Option.all_eq_true] using hlast⟩,
      fun h => ⟨h.not_mem, by simpa [Option.all_eq_true] using h.head,
        by simpa [Option.all_eq_true] using h.last⟩⟩

instance (s : Bytes) : Decidable (IsKey s) :=
  decidable_of_iff (Plain s ∧ s ≠ [] ∧ Byte.equals ∉ s ∧
      s.head?.all fun b => b != 35 && b != Byte.semicolon && b != 91)
    ⟨fun ⟨h, hne, hequals, hhead⟩ =>
        ⟨h, hne, hequals, by simpa [Option.all_eq_true, and_assoc] using hhead⟩,
      fun h => ⟨h.toPlain, h.ne_nil, h.equals_not_mem,
        by simpa [Option.all_eq_true, and_assoc] using h.head_ne⟩⟩

theorem blank_append {a b : Bytes} (ha : Blank a) (hb : Blank b) : Blank (a ++ b) :=
  List.forall_mem_append.2 ⟨ha, hb⟩

theorem not_mem_of_blank {a : Bytes} (ha : Blank a) {b : Byte} (hb : ¬ isBlank b) : b ∉ a :=
  fun hmem => hb (ha b hmem)

/-- Blanks around a text come off. -/
theorem strip_append {a s b : Bytes} (hhead : ∀ c ∈ s.head?, ¬ isBlank c)
    (hlast : ∀ c ∈ s.getLast?, ¬ isBlank c) (ha : Blank a) (hb : Blank b) :
    strip (a ++ s ++ b) = s :=
  Bytes.trimBy_append hhead hlast ha hb

theorem strip_of_blank {s : Bytes} (hs : Blank s) : strip s = [] := by
  simpa using strip_append (s := []) (b := []) (by simp) (by simp) hs (by simp [Blank])

/-- What comes off a text are the blanks around it. -/
theorem exists_strip (s : Bytes) :
    ∃ a b : Bytes, s = a ++ strip s ++ b ∧ (∀ c ∈ (strip s).head?, ¬ isBlank c) ∧
      (∀ c ∈ (strip s).getLast?, ¬ isBlank c) ∧ Blank a ∧ Blank b := by
  obtain ⟨a, b, hs, hhead, hlast, hblank⟩ := Bytes.exists_trimBy isBlank s
  exact ⟨a, b, hs, hhead, hlast, List.forall_mem_append.1 hblank⟩

/-- More blanks at the end make no difference. -/
theorem strip_append_blank (s : Bytes) {b : Bytes} (hb : Blank b) : strip (s ++ b) = strip s := by
  obtain ⟨a, b', hs, hhead, hlast, ha, hb'⟩ := exists_strip s
  have hmore : s ++ b = a ++ strip s ++ (b' ++ b) := by
    rw [← List.append_assoc, ← hs]
  rw [hmore]
  exact strip_append hhead hlast ha (blank_append hb' hb)

/-! ### Lines -/

/-- What a line says. -/
inductive Item
  | header (name : Bytes)
  | entry (key value : Bytes)
  /-- Nothing that counts. -/
  | aside
  deriving DecidableEq

/-- An empty line, a comment, or a line that is neither a header nor has something other
    than blanks in front of its first `=`. -/
inductive Ignored : Bytes → Prop
  | blank {line : Bytes} (h : Blank line) : Ignored line
  | comment {a rest : Bytes} {mark : Byte} (ha : Blank a)
      (hmark : mark = 35 ∨ mark = Byte.semicolon) : Ignored (a ++ mark :: rest)
  | junk {line : Bytes}
      (hheader : ∀ a inner b, Blank a → Blank b → line ≠ a ++ (91 :: (inner ++ [93])) ++ b)
      (hkey : ∀ front back, line = front ++ Byte.equals :: back → Byte.equals ∉ front →
        Blank front) : Ignored line

/-- How a line may be spelled, without its end. -/
inductive Spells : Item → Bytes → Prop
  | header {name a b c d : Bytes} (hname : Plain name) (ha : Blank a) (hb : Blank b)
      (hc : Blank c) (hd : Blank d) :
      Spells (.header name) (a ++ (91 :: (b ++ name ++ c ++ [93])) ++ d)
  | entry {key value a b c d : Bytes} (hkey : IsKey key) (hvalue : Plain value) (ha : Blank a)
      (hb : Blank b) (hc : Blank c) (hd : Blank d) :
      Spells (.entry key value) (a ++ (key ++ b ++ Byte.equals :: (c ++ value)) ++ d)
  | aside {line : Bytes} (h : Ignored line) : Spells .aside line

/-- What a line that was read says. -/
def Line.item : Line → Item
  | nothing => .aside
  | header name => .header name
  | entry key value => .entry key value
  | unknown => .aside

/-- What the reader takes a line for. -/
def itemOf (line : Bytes) : Item := (Line.read (strip line)).item

theorem read_header (inner : Bytes) :
    Line.read (91 :: (inner ++ [93])) = .header (strip inner) := by
  have hlast : (91 :: (inner ++ [93])).getLast? = some (93 : Byte) := by
    rw [← List.cons_append, List.getLast?_concat]
  rw [Line.read, hlast, List.dropLast_concat]
  rfl

/-- A line that starts as no comment and no header does is read by its first `=`. -/
theorem read_entry {front back : Bytes} (hne : front ≠ [])
    (hhead : ∀ b ∈ front.head?, b ≠ 35 ∧ b ≠ Byte.semicolon ∧ b ≠ 91)
    (hequals : Byte.equals ∉ front) :
    Line.read (front ++ Byte.equals :: back) =
      if (strip front).isEmpty then .unknown else .entry (strip front) (strip back) := by
  obtain ⟨b, rest, rfl⟩ := List.exists_cons_of_ne_nil hne
  obtain ⟨hhash, hsemicolon, hbracket⟩ := hhead b rfl
  rw [List.cons_append, Line.read, ← List.cons_append, Bytes.break1_append hequals]
  simp [hhash, hbracket, show b ≠ 59 from hsemicolon]

theorem strip_plain {s a b : Bytes} (hs : Plain s) (ha : Blank a) (hb : Blank b) :
    strip (a ++ s ++ b) = s :=
  strip_append hs.head hs.last ha hb

theorem itemOf_header {name a b c d : Bytes} (hname : Plain name) (ha : Blank a) (hb : Blank b)
    (hc : Blank c) (hd : Blank d) :
    itemOf (a ++ (91 :: (b ++ name ++ c ++ [93])) ++ d) = .header name := by
  have hstrip : strip (a ++ (91 :: (b ++ name ++ c ++ [93])) ++ d) =
      91 :: (b ++ name ++ c ++ [93]) := by
    refine strip_append (by simp [isBlank]) (fun x hx => ?_) ha hd
    rw [← List.cons_append, List.getLast?_concat] at hx
    obtain rfl : (93 : Byte) = x := Option.some.inj hx
    decide
  rw [itemOf, hstrip, read_header, strip_plain hname hb hc]
  rfl

theorem itemOf_entry {key value a b c d : Bytes} (hkey : IsKey key) (hvalue : Plain value)
    (ha : Blank a) (hb : Blank b) (hc : Blank c) (hd : Blank d) :
    itemOf (a ++ (key ++ b ++ Byte.equals :: (c ++ value)) ++ d) = .entry key value := by
  have hhead : ∀ more, (key ++ b ++ more).head? = key.head? := fun more => by
    rw [List.append_assoc, List.head?_append_of_ne_nil key hkey.ne_nil]
  have hequals : Byte.equals ∉ key ++ b := fun hmem =>
    (List.mem_append.1 hmem).elim hkey.equals_not_mem (not_mem_of_blank hb (by decide))
  -- Without a value the blanks behind `=` come off with those at the end.
  have hstrip : ∃ back, strip (a ++ (key ++ b ++ Byte.equals :: (c ++ value)) ++ d) =
      key ++ b ++ Byte.equals :: back ∧ strip back = value := by
    by_cases hnil : value = []
    · refine ⟨[], ?_, by rw [hnil]; rfl⟩
      have hline : a ++ (key ++ b ++ Byte.equals :: (c ++ value)) ++ d =
          a ++ (key ++ b ++ [Byte.equals]) ++ (c ++ d) := by
        simp [hnil]
      rw [hline]
      refine strip_append (by rw [hhead]; exact hkey.head) (fun x hx => ?_) ha (blank_append hc hd)
      rw [List.getLast?_concat] at hx
      obtain rfl : Byte.equals = x := Option.some.inj hx
      decide
    · refine ⟨c ++ value, ?_, ?_⟩
      · refine strip_append (by rw [hhead]; exact hkey.head) (fun x hx => ?_) ha hd
        rw [← List.cons_append, ← List.append_assoc, List.getLast?_append_of_ne_nil _ hnil] at hx
        exact hvalue.last x hx
      · simpa using strip_plain hvalue hc (b := []) (by simp [Blank])
  obtain ⟨back, hline, hback⟩ := hstrip
  have hfront : strip (key ++ b) = key := by
    simpa using strip_plain hkey.toPlain (a := []) (by simp [Blank]) hb
  have hne : key ++ b ≠ [] := List.append_ne_nil_of_left_ne_nil hkey.ne_nil b
  have hread : Line.read (key ++ b ++ Byte.equals :: back) = _ := read_entry hne
    (by rw [← List.append_nil (key ++ b), hhead]; exact hkey.head_ne) hequals
  rw [itemOf, hline, hread, hfront, hback, if_neg (by simpa using hkey.ne_nil)]
  rfl

/-- The first byte that is no blank comes first once the blanks are gone. -/
theorem exists_strip_eq_cons {a rest : Bytes} {mark : Byte} (ha : Blank a) (hmark : ¬ isBlank mark) :
    ∃ more, strip (a ++ mark :: rest) = mark :: more := by
  obtain ⟨x, y, hline, hhead, hlast, hx, hy⟩ := exists_strip (mark :: rest)
  cases x with
  | cons c x =>
    obtain ⟨rfl, -⟩ := List.cons.inj hline
    exact absurd (hx mark List.mem_cons_self) hmark
  | nil =>
    cases hcore : strip (mark :: rest) with
    | nil =>
      rw [hcore, List.nil_append, List.nil_append] at hline
      exact absurd (hy mark (hline ▸ List.mem_cons_self)) hmark
    | cons c more =>
      rw [hcore] at hline hhead hlast
      obtain ⟨rfl, hrest⟩ := List.cons.inj hline
      have hparts : a ++ mark :: rest = a ++ (mark :: more) ++ y := by simp [hrest]
      exact ⟨more, hparts ▸ strip_append hhead hlast ha hy⟩

theorem itemOf_comment {a rest : Bytes} {mark : Byte} (ha : Blank a)
    (hmark : mark = 35 ∨ mark = Byte.semicolon) : itemOf (a ++ mark :: rest) = .aside := by
  obtain ⟨more, hstrip⟩ : ∃ more, strip (a ++ mark :: rest) = mark :: more :=
    exists_strip_eq_cons ha (show ¬ isBlank mark by rcases hmark with rfl | rfl <;> decide)
  rw [itemOf, hstrip, Line.read, if_pos (by rcases hmark with rfl | rfl <;> rfl)]
  rfl

theorem itemOf_junk {line : Bytes}
    (hheader : ∀ a inner b, Blank a → Blank b → line ≠ a ++ (91 :: (inner ++ [93])) ++ b)
    (hkey : ∀ front back, line = front ++ Byte.equals :: back → Byte.equals ∉ front → Blank front) :
    itemOf line = .aside := by
  obtain ⟨a, b, hline, -, -, ha, hb⟩ := exists_strip line
  rw [itemOf]
  cases hcore : strip line with
  | nil => rfl
  | cons first rest =>
    rw [hcore] at hline
    rw [Line.read]
    split
    · rfl
    · split
      · next hbrackets =>
        -- Such a line is a header.
        rw [Bool.and_eq_true, beq_iff_eq, beq_iff_eq, List.getLast?_eq_some_iff] at hbrackets
        obtain ⟨rfl, inner, hinner⟩ := hbrackets
        cases inner with
        | nil => exact absurd (List.cons.inj hinner).1 (by decide)
        | cons c inner =>
          obtain ⟨rfl, rfl⟩ := List.cons.inj hinner
          exact absurd hline (hheader a inner b ha hb)
      · split
        · rfl
        · next key value hbreak =>
          obtain ⟨hequals, hparts⟩ := Bytes.break1_eq_some_iff.1 hbreak
          -- There are only blanks in front of its first `=`.
          have hfront : Blank (a ++ key) := by
            refine hkey (a ++ key) (value ++ b) ?_ fun hmem => ?_
            · rw [hline, hparts]
              simp
            · exact (List.mem_append.1 hmem).elim (not_mem_of_blank ha (by decide)) hequals
          have hblank : Blank key := fun c hc => hfront c (List.mem_append_right a hc)
          rw [strip_of_blank hblank]
          rfl

/-- However a line is spelled, it is taken for what it spells. -/
theorem Spells.item_eq {i : Item} {line : Bytes} (h : Spells i line) : itemOf line = i := by
  cases h with
  | header hname ha hb hc hd => exact itemOf_header hname ha hb hc hd
  | entry hkey hvalue ha hb hc hd => exact itemOf_entry hkey hvalue ha hb hc hd
  | aside h =>
    cases h with
    | blank h =>
      rw [itemOf, strip_of_blank h]
      rfl
    | comment ha hmark => exact itemOf_comment ha hmark
    | junk hheader hkey => exact itemOf_junk hheader hkey

/-! ### Texts -/

/-- The text consists of these lines, each with its end behind it. There may be none
    behind the last one. -/
inductive LinesOf : List Bytes → Bytes → Prop
  | nil : LinesOf [] []
  | last {line : Bytes} (hline : Byte.lineFeed ∉ line) : LinesOf [line] line
  | cons {line lineEnd text : Bytes} {lines : List Bytes} (hline : Byte.lineFeed ∉ line)
      (hend : lineEnd = [Byte.lineFeed] ∨ lineEnd = [Byte.carriageReturn, Byte.lineFeed])
      (rest : LinesOf lines text) : LinesOf (line :: lines) (line ++ lineEnd ++ text)

/-- The reading once a line has said something. -/
def Reading.take (r : Reading) : Item → Reading
  | .header name => { r with name }
  | .entry key value => { r with sections := putIn r.sections r.name key value }
  | .aside => r

theorem Reading.value_step (r : Reading) (number : Nat) (line : Bytes) :
    (r.step number line).value = r.take (itemOf line) := by
  rw [Reading.step, itemOf]
  cases Line.read (strip line) <;> rfl

theorem Reading.value_lines (r : Reading) (number : Nat) (lines : List Bytes) :
    (r.lines number lines).value = (lines.map itemOf).foldl Reading.take r := by
  induction lines generalizing r number with
  | nil => rfl
  | cons line lines ih =>
    rw [Reading.lines, Reported.value_bind, Reading.value_step, ih, List.map_cons, List.foldl_cons]

/-- A carriage return in front of a line feed is a blank at the end of a line. -/
theorem LinesOf.foldl_take {lines : List Bytes} {text : Bytes} (h : LinesOf lines text)
    (r : Reading) : ((text.splitOn Byte.lineFeed).map itemOf).foldl Reading.take r =
      (lines.map itemOf).foldl Reading.take r := by
  induction h generalizing r with
  | nil => rfl
  | last hline => rw [Bytes.splitOn_of_not_mem hline]
  | @cons line lineEnd text lines hline hend rest ih =>
    obtain ⟨blanks, hblanks, hfeed, rfl⟩ : ∃ blanks, Blank blanks ∧ Byte.lineFeed ∉ blanks ∧
        lineEnd = blanks ++ [Byte.lineFeed] := by
      rcases hend with rfl | rfl
      · exact ⟨[], by decide, by decide, rfl⟩
      · exact ⟨[Byte.carriageReturn], by decide, by decide, rfl⟩
    have hnone : Byte.lineFeed ∉ line ++ blanks := fun hmem =>
      (List.mem_append.1 hmem).elim hline hfeed
    have hparts : line ++ (blanks ++ [Byte.lineFeed]) ++ text =
        line ++ blanks ++ Byte.lineFeed :: text := by simp
    have hitem : itemOf (line ++ blanks) = itemOf line := by
      rw [itemOf, itemOf, strip_append_blank line hblanks]
    rw [hparts, Bytes.splitOn_append hnone, List.map_cons, List.map_cons, List.foldl_cons,
      List.foldl_cons, hitem, ih]

/-- What the entries of lines say, each with its section and key. The first ones stand in a
    section that was opened before. -/
def said (name : Bytes) : List Item → List ((Bytes × Bytes) × Bytes)
  | [] => []
  | .header name' :: items => said name' items
  | .entry key value :: items => ((name, key), value) :: said name items
  | .aside :: items => said name items

/-- The last value that is said at a place. -/
def lastAt (place : Bytes × Bytes) (said : List ((Bytes × Bytes) × Bytes)) : Option Bytes :=
  (said.reverse.find? (·.1 = place)).map (·.2)

theorem lastAt_cons (place : Bytes × Bytes) (e : (Bytes × Bytes) × Bytes)
    (said : List ((Bytes × Bytes) × Bytes)) :
    lastAt place (e :: said) =
      (lastAt place said).or (if e.1 = place then some e.2 else none) := by
  rw [lastAt, List.reverse_cons, List.find?_append, lastAt, Option.map_or, List.find?_singleton]
  by_cases h : e.1 = place <;> simp [h]

/-- The value at a key of a section. -/
def valueAt (m : Sections) (name key : Bytes) : Option Bytes := (m.get? name).bind (·.get? key)

theorem valueAt_putIn (m : Sections) (name key value name' key' : Bytes) :
    valueAt (putIn m name key value) name' key' =
      if (name, key) = (name', key') then some value else valueAt m name' key' := by
  rw [valueAt, putIn, Table.get?_insert, valueAt]
  by_cases hname : name' = name
  · subst hname
    rw [if_pos Std.ReflCmp.compare_self, Option.bind_some, Table.get?_insert]
    by_cases hkey : key' = key
    · subst hkey
      rw [if_pos Std.ReflCmp.compare_self, if_pos rfl]
    · rw [if_neg fun heq => hkey (Std.LawfulEqCmp.eq_of_compare heq),
        if_neg fun heq => hkey (Prod.mk.inj heq).2.symm]
      cases m.get? name' <;> rfl
  · rw [if_neg fun heq => hname (Std.LawfulEqCmp.eq_of_compare heq),
      if_neg fun heq => hname (Prod.mk.inj heq).1.symm]

/-- Lines are read into the last value said at each place, or else what was there before. -/
theorem valueAt_foldl_take (items : List Item) (r : Reading) (name key : Bytes) :
    valueAt (items.foldl Reading.take r).sections name key =
      (lastAt (name, key) (said r.name items)).or (valueAt r.sections name key) := by
  induction items generalizing r with
  | nil => rfl
  | cons i items ih =>
    rw [List.foldl_cons, ih]
    cases i with
    | header name' => rfl
    | aside => rfl
    | entry key' value =>
      rw [said, lastAt_cons, Option.or_assoc, Reading.take, valueAt_putIn]
      congr 1
      split <;> rfl

/-! ### Maps -/

/-- Every section has a key. -/
structure Tidy (m : Sections) : Prop where
  sections : ∀ e ∈ m.entries, e.2.entries ≠ []

theorem tidy_empty : Tidy .empty := ⟨List.forall_mem_nil _⟩

theorem Tidy.section {m : Sections} (hm : Tidy m) {name : Bytes} {t : Section}
    (h : m.get? name = some t) : t.entries ≠ [] := by
  obtain ⟨e, he, -, rfl⟩ := Table.exists_mem_of_get? h
  exact hm.sections e he

theorem Tidy.putIn {m : Sections} (hm : Tidy m) (name key value : Bytes) :
    Tidy (putIn m name key value) := by
  refine ⟨fun e he => ?_⟩
  rcases Table.mem_insert he with he | ⟨hnew, -⟩
  · exact hm.sections e he
  · rw [hnew]
    exact Table.insert_ne_nil _ _ _

theorem tidy_foldl_take (items : List Item) {r : Reading} (hr : Tidy r.sections) :
    Tidy (items.foldl Reading.take r).sections := by
  induction items generalizing r with
  | nil => exact hr
  | cons i items ih =>
    refine ih ?_
    cases i with
    | header name => exact hr
    | entry key value => exact hr.putIn _ _ _
    | aside => exact hr

/-- A tidy map is known by its values. -/
theorem Tidy.ext {m m' : Sections} (hm : Tidy m) (hm' : Tidy m')
    (h : ∀ name key, valueAt m name key = valueAt m' name key) : m = m' := by
  -- A section has a key, so that it shows in the values.
  have hsome : ∀ {m : Sections}, Tidy m → ∀ {name t}, m.get? name = some t →
      ∃ key v, valueAt m name key = some v := fun hm name t ht => by
    obtain ⟨⟨key, v⟩, hmem⟩ := List.exists_mem_of_ne_nil _ (hm.section ht)
    exact ⟨key, v, by rw [valueAt, ht, Option.bind_some, (Table.mem_entries_iff _).1 hmem]⟩
  refine Table.ext_get? fun name => ?_
  cases ht : m.get? name with
  | none =>
    cases ht' : m'.get? name with
    | none => rfl
    | some t' =>
      obtain ⟨key, v, hv⟩ := hsome hm' ht'
      rw [← h, valueAt, ht] at hv
      cases hv
  | some t =>
    cases ht' : m'.get? name with
    | none =>
      obtain ⟨key, v, hv⟩ := hsome hm ht
      rw [h, valueAt, ht'] at hv
      cases hv
    | some t' =>
      refine congrArg some (Table.ext_get? fun key => ?_)
      have hkey := h name key
      rwa [valueAt, valueAt, ht, ht'] at hkey

/-- A map that can be written: names, keys and values keep apart what stands between
    them. -/
structure Writable (m : Sections) : Prop extends Tidy m where
  name : ∀ e ∈ m.entries, Plain e.1
  entry : ∀ e ∈ m.entries, ∀ f ∈ e.2.entries, IsKey f.1 ∧ Plain f.2

/-- The text consists of lines that say the map. The entries in front of the first header
    are those of `global`. -/
def Writes (m : Sections) (text : Bytes) : Prop :=
  ∃ items lines, LinesOf lines text ∧ List.Forall₂ Spells items lines ∧
    ∀ name key, valueAt m name key = lastAt (name, key) (said "global" items)

/-- The plainest spelling. -/
def Item.line : Item → Bytes
  | header name => 91 :: (name ++ [93])
  | entry key value => key ++ [32] ++ Byte.equals :: ([32] ++ value)
  | aside => []

/-- The lines of a map: each section with its header and its entries. -/
def itemsOf (m : Sections) : List Item :=
  m.entries.flatMap fun e => .header e.1 :: e.2.entries.map fun f => .entry f.1 f.2

/-- The text of a map. -/
def written (m : Sections) : Bytes := (itemsOf m).flatMap fun i => i.line ++ [Byte.lineFeed]

theorem forall_mem_itemsOf {m : Sections} {p : Item → Prop}
    (header : ∀ e ∈ m.entries, p (.header e.1))
    (entry : ∀ e ∈ m.entries, ∀ f ∈ e.2.entries, p (.entry f.1 f.2)) : ∀ i ∈ itemsOf m, p i := by
  intro i hi
  obtain ⟨e, he, hi⟩ := List.mem_flatMap.1 hi
  rcases List.mem_cons.1 hi with rfl | hi
  · exact header e he
  · obtain ⟨f, hf, rfl⟩ := List.mem_map.1 hi
    exact entry e he f hf

/-- The plainest spelling is one. -/
theorem Writable.spells {m : Sections} (hm : Writable m) :
    ∀ i ∈ itemsOf m, Spells i i.line ∧ Byte.lineFeed ∉ i.line := by
  refine forall_mem_itemsOf (fun e he => ?_) fun e he f hf => ?_
  · have hname := hm.name e he
    refine ⟨?_, by simp [Item.line, hname.not_mem, Byte.lineFeed]⟩
    simpa [Item.line] using Spells.header (a := []) (b := []) (c := []) (d := []) hname
      (by simp [Blank]) (by simp [Blank]) (by simp [Blank]) (by simp [Blank])
  · obtain ⟨hkey, hvalue⟩ := hm.entry e he f hf
    refine ⟨?_, by simp [Item.line, hkey.not_mem, hvalue.not_mem, Byte.lineFeed,
      Byte.equals]⟩
    simpa [Item.line] using Spells.entry (a := []) (b := [32]) (c := [32]) (d := []) hkey hvalue
      (by simp [Blank]) (by decide) (by decide) (by simp [Blank])

theorem linesOf_line {items : List Item} (h : ∀ i ∈ items, Byte.lineFeed ∉ i.line) :
    LinesOf (items.map Item.line) (items.flatMap fun i => i.line ++ [Byte.lineFeed]) := by
  induction items with
  | nil => exact .nil
  | cons i items ih =>
    obtain ⟨hi, hitems⟩ := List.forall_mem_cons.1 h
    exact .cons hi (.inl rfl) (ih hitems)

theorem said_entries (name : Bytes) (entries : List (Bytes × Bytes)) (items : List Item) :
    said name ((entries.map fun f => .entry f.1 f.2) ++ items) =
      (entries.map fun f => ((name, f.1), f.2)) ++ said name items := by
  induction entries with
  | nil => rfl
  | cons f entries ih =>
    rw [List.map_cons, List.cons_append, said, ih, List.map_cons, List.cons_append]

theorem said_itemsOf (name : Bytes) (m : Sections) :
    said name (itemsOf m) =
      m.entries.flatMap fun e => e.2.entries.map fun f => ((e.1, f.1), f.2) := by
  rw [itemsOf]
  induction m.entries generalizing name with
  | nil => rfl
  | cons e entries ih =>
    rw [List.flatMap_cons, List.cons_append, said, said_entries, ih, List.flatMap_cons]

/-- What is said is what the map has. -/
theorem mem_said_iff (m : Sections) (name : Bytes) {n k v : Bytes} :
    ((n, k), v) ∈ said name (itemsOf m) ↔ valueAt m n k = some v := by
  simp only [said_itemsOf, List.mem_flatMap, List.mem_map, Prod.mk.injEq, valueAt,
    Option.bind_eq_some_iff]
  constructor
  · rintro ⟨e, he, f, hf, ⟨rfl, rfl⟩, rfl⟩
    exact ⟨e.2, (Table.mem_entries_iff _).1 he, (Table.mem_entries_iff _).1 hf⟩
  · rintro ⟨t, ht, hv⟩
    exact ⟨(n, t), (Table.mem_entries_iff _).2 ht, (k, v), (Table.mem_entries_iff _).2 hv,
      ⟨rfl, rfl⟩, rfl⟩

theorem mem_of_lastAt {place : Bytes × Bytes} {said : List ((Bytes × Bytes) × Bytes)} {v : Bytes}
    (h : lastAt place said = some v) : (place, v) ∈ said := by
  obtain ⟨e, he, rfl⟩ := Option.map_eq_some_iff.1 h
  obtain rfl : e.1 = place := by simpa using List.find?_some he
  exact List.mem_reverse.1 (List.mem_of_find?_eq_some he)

theorem exists_lastAt {place : Bytes × Bytes} {said : List ((Bytes × Bytes) × Bytes)} {v : Bytes}
    (h : (place, v) ∈ said) : ∃ v', lastAt place said = some v' := by
  rw [← Option.isSome_iff_exists, lastAt, Option.isSome_map, List.find?_isSome]
  exact ⟨(place, v), List.mem_reverse.2 h, decide_eq_true rfl⟩

/-- In a map there is one value at a place, so the last one said is this. -/
theorem valueAt_eq (m : Sections) (name n k : Bytes) :
    valueAt m n k = lastAt (n, k) (said name (itemsOf m)) := by
  refine Option.ext fun v => ⟨fun hv => ?_, fun hv => ?_⟩
  · obtain ⟨v', hv'⟩ := exists_lastAt ((mem_said_iff m name).2 hv)
    rw [hv', ← hv, (mem_said_iff m name).1 (mem_of_lastAt hv')]
  · exact (mem_said_iff m name).1 (mem_of_lastAt hv)

/-- A map that can be written is. -/
theorem Writable.writes_written {m : Sections} (hm : Writable m) : Writes m (written m) := by
  refine ⟨itemsOf m, (itemsOf m).map Item.line, ?_, ?_, valueAt_eq m "global"⟩
  · exact linesOf_line fun i hi => (hm.spells i hi).2
  · exact List.forall₂_map_right_iff.2 (List.forall₂_same.2 fun i hi => (hm.spells i hi).1)

/-! ### Loading -/

/-- A text that writes a map is read as it. -/
theorem Writes.value_ofText {m : Sections} {text : Bytes} (hm : Tidy m) (h : Writes m text) :
    (ofText text).value = m := by
  obtain ⟨items, lines, hlines, hspells, hvalues⟩ := h
  have hitems : lines.map itemOf = items := by
    rw [← List.forall₂_eq_eq_eq]
    refine List.forall₂_map_left_iff.2 (hspells.flip.imp fun line i hi => ?_)
    exact hi.item_eq
  have hsections : (ofText text).value = (items.foldl Reading.take {}).sections := by
    rw [← hitems, ← hlines.foldl_take, ← Reading.value_lines]
    rfl
  rw [hsections]
  refine Tidy.ext (tidy_foldl_take items tidy_empty) hm fun name key => ?_
  rw [valueAt_foldl_take, hvalues]
  exact Option.or_none

/-- The settings are those of a map, whichever way they are asked for. -/
structure Holds (s : Settings) (m : Sections) : Prop where
  sections : s.sections = m
  has (name key : Bytes) : s.has name key = (valueAt m name key).isSome
  string (name key default : Bytes) : s.string name key default = (valueAt m name key).getD default

theorem holds_of_sections {s : Settings} {m : Sections} (h : s.sections = m) : s.Holds m where
  sections := h
  has _ _ := h ▸ rfl
  string _ _ _ := h ▸ rfl

/-! ### Files on the disk -/

/-- Whether the file of a path is loaded, and the settings then. -/
def loadFrom (s : Settings) (d : Disk) (path : Bytes) : Bool × Settings :=
  (s.load path (CommandLine.textOf d path)).value

section Files

variable {s : Settings} {d : Disk} {path text : Bytes} {modified : Int}

theorem loadFrom_of_file (h : d.status path = .ok (.file text modified)) :
    s.loadFrom d path = (s.load path (some text)).value := by
  rw [loadFrom, CommandLine.textOf, h]

theorem loadFrom_of_error {e : DiskError} (h : d.status path = .error e) :
    s.loadFrom d path = (false, s) := by
  rw [loadFrom, CommandLine.textOf, h]
  rfl

/-- What can be opened and is no file is loaded as if there was nothing in it. -/
theorem loadFrom_of_no_file {entry : DiskEntry} (h : d.status path = .ok entry)
    (hfile : ∀ text modified, entry ≠ .file text modified) :
    s.loadFrom d path = (s.load path (some [])).value := by
  rw [loadFrom, CommandLine.textOf, h]
  cases entry with
  | file text modified => exact absurd rfl (hfile text modified)
  | directory | link => rfl

end Files

/-- A map that can be written has a text, and every text that writes it is loaded as the
    map, in the place of all earlier settings, alone or in a file. If the path leads nowhere,
    nothing is loaded, and the settings are left as they are. If it leads to what is no file,
    no settings are left. -/
theorem load_written {m : Sections} (hm : Writable m) :
    Writes m (written m) ∧
      (∀ text, Writes m text → ∀ s : Settings, (s.loadText text).value.Holds m ∧
        ∀ (d : Disk) (path : Bytes) (modified : Int), d.status path = .ok (.file text modified) →
          (s.loadFrom d path).1 ∧ (s.loadFrom d path).2.Holds m) ∧
      ∀ (s : Settings) (d : Disk) (path : Bytes),
        (∀ e, d.status path = .error e → s.loadFrom d path = (false, s)) ∧
          ∀ entry, d.status path = .ok entry → (∀ text modified, entry ≠ .file text modified) →
            (s.loadFrom d path).1 ∧ (s.loadFrom d path).2.Holds .empty := by
  refine ⟨hm.writes_written, fun text htext s => ⟨?_, fun d path modified hfile => ?_⟩,
    fun s d path => ⟨fun e => loadFrom_of_error, fun entry hentry hfile => ?_⟩⟩
  · exact holds_of_sections (htext.value_ofText hm.toTidy)
  · rw [loadFrom_of_file hfile]
    exact ⟨rfl, holds_of_sections (htext.value_ofText hm.toTidy)⟩
  · rw [loadFrom_of_no_file hentry hfile]
    exact ⟨rfl, holds_of_sections rfl⟩

/-- A map with a value that looks like an entry with a comment, and an empty one. -/
def stored : Sections :=
  .ofList [("store", .ofList [("root", "a=b # c"), ("spare", "")]),
    ("global", .ofList [("port", "2")])]

/-- What a text says that opens two sections again, and gives a key twice. -/
def storedItems : List Item :=
  [.entry "port" "1", .aside, .aside, .header "store", .entry "root" "a=b # c", .aside, .aside,
    .header "global", .entry "port" "2", .header "store", .entry "spare" ""]

def storedLines : List Bytes :=
  ["port = 1", "\t# port = 3", "", " [ store ] ", "root\t=  a=b # c", "[store", " = 4",
    "[global]", "port=2", "[store]", "spare ="]

def storedText : Bytes :=
  "port = 1\r\n\t# port = 3\n\n [ store ] \r\nroot\t=  a=b # c\n[store\n = 4\n[global]\nport=2\n[store]\nspare ="

theorem storedText_linesOf : LinesOf storedLines storedText :=
  .cons (by decide) (.inr rfl) <| .cons (by decide) (.inl rfl) <| .cons (by decide) (.inl rfl) <|
    .cons (by decide) (.inr rfl) <| .cons (by decide) (.inl rfl) <| .cons (by decide) (.inl rfl) <|
    .cons (by decide) (.inl rfl) <| .cons (by decide) (.inl rfl) <| .cons (by decide) (.inl rfl) <|
    .cons (by decide) (.inl rfl) <| .last (by decide)

/-- A line without a closing bracket is no header. -/
theorem ignored_of_not_mem {line : Bytes} (hline : (93 : Byte) ∉ line)
    (hkey : ∀ front back, line = front ++ Byte.equals :: back → Byte.equals ∉ front →
      Blank front) : Ignored line :=
  .junk (fun a inner b _ _ heq => hline (by simp [heq])) hkey

theorem storedItems_spelled : List.Forall₂ Spells storedItems storedLines := by
  have hopen : Ignored "[store" := by
    refine ignored_of_not_mem (by decide) fun front back hline => ?_
    have hmem : Byte.equals ∈ ("[store" : Bytes) := by simp [hline]
    exact absurd hmem (by decide)
  have hkeyless : Ignored " = 4" := by
    refine ignored_of_not_mem (by decide) fun front back hline hfront => ?_
    have hbreak := Bytes.break1_append hfront back
    rw [← hline] at hbreak
    obtain rfl : [32] = front := congrArg Prod.fst hbreak
    decide
  have hnone : Blank [] := by decide
  have hblank : Blank [32] := by decide
  exact
    .cons (.entry (a := []) (b := [32]) (c := [32]) (d := []) (by decide) (by decide) hnone hblank
      hblank hnone) <|
    .cons (.aside (.comment (a := [9]) (by decide) (.inl rfl))) <|
    .cons (.aside (.blank hnone)) <|
    .cons (.header (a := [32]) (b := [32]) (c := [32]) (d := [32]) (by decide) hblank hblank
      hblank hblank) <|
    .cons (.entry (a := []) (b := [9]) (c := [32, 32]) (d := []) (by decide) (by decide) hnone
      (by decide) (by decide) hnone) <|
    .cons (.aside hopen) <|
    .cons (.aside hkeyless) <|
    .cons (.header (a := []) (b := []) (c := []) (d := []) (by decide) hnone hnone hnone hnone) <|
    .cons (.entry (a := []) (b := []) (c := []) (d := []) (by decide) (by decide) hnone hnone
      hnone hnone) <|
    .cons (.header (a := []) (b := []) (c := []) (d := []) (by decide) hnone hnone hnone hnone) <|
    .cons (.entry (a := []) (b := [32]) (c := []) (d := []) (by decide) (by decide) hnone hblank
      hnone hnone) .nil

theorem stored_writable : Writable stored where
  sections := by decide
  name := by decide
  entry := by decide

theorem storedText_writes : Writes stored storedText := by
  refine ⟨storedItems, storedLines, storedText_linesOf, storedItems_spelled, fun name key => ?_⟩
  have hstored : stored = (storedItems.foldl Reading.take {}).sections := rfl
  rw [hstored, valueAt_foldl_take]
  exact Option.or_none

/-- A disk with this text in a file, and with a directory. -/
def storedDisk : Disk where
  entries := .ofList [(["c"], .file storedText 0), (["d"], .directory 0)]

theorem load_written_reopened :
    Writable stored ∧ Writes stored storedText ∧ Writes stored (written stored) ∧
      (let s := set {} "spare" "port" "0"
      (s.loadText storedText).value.Holds stored ∧
        (s.loadFrom storedDisk "/c").2.Holds stored ∧
        s.loadFrom storedDisk "/e" = (false, s) ∧
        (s.loadFrom storedDisk "/d").2.Holds .empty) := by
  obtain ⟨hwritten, hloaded, hother⟩ := load_written stored_writable
  obtain ⟨htext, hfile⟩ := hloaded storedText storedText_writes (set {} "spare" "port" "0")
  exact ⟨stored_writable, storedText_writes, hwritten, htext, (hfile storedDisk "/c" 0 rfl).2,
    (hother _ storedDisk "/e").1 .missing rfl,
    ((hother _ storedDisk "/d").2 (.directory 0) rfl fun _ _ h => by cases h).2⟩

/-- What is no file does not always leave the settings as they were: a directory leaves none of
    them. -/
theorem not_always_kept :
    ¬ ∀ (s : Settings) (d : Disk) (path : Bytes),
      (∀ text modified, d.status path ≠ .ok (.file text modified)) →
        s.loadFrom d path = (false, s) := by
  intro hall
  have hkept := hall (set {} "spare" "port" "0") storedDisk "/d" fun _ _ h => by cases h
  exact absurd (congrArg Prod.fst hkept) (by decide +kernel)

end PageServer.Settings
