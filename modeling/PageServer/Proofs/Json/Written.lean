import PageServer.Proofs.Json.Reader

/-!
# Written JSON

What the reader makes of what is written. A text gives a value, or nothing, if that is what
the reader makes of it wherever it stands (`Json.Gives`). Strings give themselves, whatever
is in them (`Json.stringText_string`), and integers and decimal fractions their numbers. An
object gives the names with what their values give, and nothing if one of those gives nothing
(`Json.gives_layout`).
-/

namespace PageServer.Json

variable {α β : Type} {s t rest : Bytes} {v : Value}

/-! ### Strings -/

/-- A control byte is written as its code unit. -/
theorem denotes_unit {b : Byte} (hb : b < 0x20) :
    Numeral.Denotes 16 (48 :: 48 :: Numeral.hexDigits 2 b.toNat) b.toNat ∧ utf8 b.toNat = [b] := by
  have hall : ∀ n < 32, Numeral.Denotes 16 (48 :: 48 :: Numeral.hexDigits 2 n) n ∧
      utf8 n = [UInt8.ofNat n] := by decide
  have h := hall b.toNat (UInt8.lt_iff_toNat_lt.1 hb)
  rwa [UInt8.ofNat_toNat] at h

/-- Every byte is written as what stands for it. -/
theorem chars_escapeByte (b : Byte) (h : Chars t s) : Chars (escapeByte b ++ t) (b :: s) := by
  have hescape : ∀ {c}, (c, b) ∈ shortEscapes → Chars (Byte.backslash :: c :: t) (b :: s) :=
    fun hc => .short hc h
  rw [escapeByte]
  split_ifs with hbackslash hquote hfeed hreturn htab hcontrol
  · rw [beq_iff_eq] at hbackslash
    exact hescape (hbackslash ▸ by decide)
  · rw [beq_iff_eq] at hquote
    exact hescape (hquote ▸ by decide)
  · rw [beq_iff_eq] at hfeed
    exact hescape (hfeed ▸ by decide)
  · rw [beq_iff_eq] at hreturn
    exact hescape (hreturn ▸ by decide)
  · rw [beq_iff_eq] at htab
    exact hescape (htab ▸ by decide)
  · obtain ⟨hunit, hutf8⟩ := denotes_unit hcontrol
    have hchars := Chars.unit hunit h
    rwa [hutf8] at hchars
  · rw [beq_iff_eq] at hbackslash hquote
    exact .plain ⟨UInt8.not_lt.1 hcontrol, hquote, hbackslash⟩ h

theorem chars_escape (s : Bytes) : Chars (escape s) s := by
  induction s with
  | nil => exact .nil
  | cons b s ih => exact chars_escapeByte b ih

/-- A string stands for itself. -/
theorem stringText_string (s : Bytes) : StringText (string s) s := .quoted (chars_escape s)

/-! ### Numbers -/

theorem whole_ofNat (n : Nat) : Whole (Numeral.ofNat n) := by
  obtain ⟨hne, hdigits, -⟩ := Numeral.denotes_iff.1 (Numeral.denotes_ofNat n)
  exact ⟨⟨hne, hdigits⟩, Numeral.ofNat_eq_zero_of_head⟩

theorem numberText_signed (negative : Bool) (n : Nat) :
    NumberText (Binary64.signText negative ++ Numeral.ofNat n) (signed negative n) 0 := by
  have h := NumberText.mk negative (whole_ofNat n) .none .none
  simpa [(Numeral.denotes_iff.1 (Numeral.denotes_ofNat n)).2.2] using h

theorem numberText_ofInt (n : Int) : NumberText (Numeral.ofInt n) n 0 := by
  cases n with
  | ofNat n => exact numberText_signed false n
  | negSucc n => exact numberText_signed true (n + 1)

/-- A number of units of a decimal place stands for that many of them. -/
theorem numberText_pointed (negative : Bool) {places : Nat} (hplaces : 0 < places) (units : Nat) :
    NumberText (Binary64.signText negative ++ Binary64.pointed places units)
      (signed negative units) (-places) := by
  let part := Numeral.ofNat (units % 10 ^ places)
  let digits := List.replicate (places - part.length) 48 ++ part
  have hlength : part.length ≤ places :=
    Numeral.length_ofNat_le hplaces (Nat.mod_lt _ (Nat.pow_pos (by decide)))
  have hdigits : digits.length = places := by
    rw [List.length_append, List.length_replicate]
    omega
  obtain ⟨hne, hpart, hvalue⟩ := Numeral.denotes_iff.1 (Numeral.denotes_ofNat (units % 10 ^ places))
  have hfraction : Fraction (Byte.dot :: digits) digits := by
    refine .point ⟨List.append_ne_nil_of_right_ne_nil _ hne, List.forall_mem_append.2 ⟨?_, hpart⟩⟩
    intro b hb
    rw [(List.mem_replicate.1 hb).2]
    decide
  -- The digits behind the point are the remainder, and there are as many as places.
  have hunits : Numeral.value 10 (Numeral.ofNat (units / 10 ^ places) ++ digits) = units := by
    rw [Numeral.value_append, hdigits, Numeral.value_zeros, hvalue,
      (Numeral.denotes_iff.1 (Numeral.denotes_ofNat _)).2.2, Nat.div_add_mod']
  have h := NumberText.mk negative (whole_ofNat (units / 10 ^ places)) hfraction .none
  rw [hunits, hdigits, Int.zero_sub] at h
  rw [Binary64.pointed, if_neg hplaces.ne']
  simpa [digits, part] using h

/-! ### Values -/

/-- What the reader makes of the text, wherever it stands: a value, or nothing. -/
structure Gives (t : Bytes) (o : Option Value) : Prop where
  start : ∃ b u, t = b :: u ∧ ¬ isBlank b ∧ b ≠ closeBracket
  reads : ∀ n rest, t.length < n → Delimited rest → readValue n (t ++ rest) = o.map (·, rest)

/-- A text gives the value that it stands for. -/
theorem gives_some_iff : Gives t (some v) ↔ TextOf (.value v) t := by
  constructor
  · intro h
    have hread := h.reads (t.length + 1) [] (Nat.lt_succ_self _) fun _ hb => nomatch hb
    obtain ⟨t', ht, htext⟩ := readsOnly_readValue _ hread
    rw [List.append_nil, List.append_nil] at ht
    rwa [ht]
  · intro h
    obtain ⟨b, u, ht, hblank, hclose, -⟩ := h.exists_cons
    exact ⟨⟨b, u, ht, hblank, hclose⟩, h.read⟩

/-- A text that no value starts as gives nothing. -/
theorem gives_none {b : Byte} {u : Bytes} (hb : ¬ isBlank b ∧ b ≠ closeBracket)
    (h : ∀ n rest, readValue (n + 1) (b :: u ++ rest) = none) : Gives (b :: u) none := by
  refine ⟨⟨b, u, rfl, hb⟩, ?_⟩
  rintro (_ | n) rest hn -
  · cases hn
  · exact h n rest

theorem gives_string (s : Bytes) : Gives (string s) (some (.string s)) :=
  gives_some_iff.2 (.string (stringText_string s))

theorem gives_ofInt (n : Int) : Gives (Numeral.ofInt n) (some (.number n 0)) :=
  gives_some_iff.2 (.number (numberText_ofInt n))

theorem gives_ofNat (n : Nat) : Gives (Numeral.ofNat n) (some (.number n 0)) := gives_ofInt n

theorem gives_bool (b : Bool) : Gives (bool b) (some (.bool b)) := by
  cases b with
  | false => exact gives_some_iff.2 .false
  | true => exact gives_some_iff.2 .true

theorem Gives.skip_eq {o : Option Value} (h : Gives t o) {front : Bytes} (hfront : Blank front)
    (rest : Bytes) : skip (front ++ (t ++ rest)) = t ++ rest := by
  obtain ⟨b, u, rfl, hb, -⟩ := h.start
  exact skip_append hfront hb (u ++ rest)

theorem blank_nil : Blank [] := fun _ hb => nomatch hb

theorem Gives.readPadded_eq {o : Option Value} (h : Gives t o) {n : Nat} (hn : t.length < n)
    {front back : Bytes} (hfront : Blank front) (hback : Blank back) (hrest : Closed rest) :
    readPadded (readValue n) (front ++ (t ++ (back ++ rest))) = o.map (·, rest) := by
  rw [readPadded, h.skip_eq hfront, h.reads n _ hn (hrest.delimited_append hback), Option.map_map]
  exact congrArg (fun rest => o.map (·, rest)) (hrest.skip_append hback)

theorem Gives.readMember_eq {o : Option Value} (h : Gives t o) {n : Nat} (hn : t.length < n)
    {front gap back : Bytes} (hfront : Blank front) (hgap : Blank gap) (hback : Blank back)
    (hrest : Closed rest) (name : Bytes) :
    readMember (readValue n)
      (front ++ (string name ++ Byte.colon :: (gap ++ (t ++ (back ++ rest))))) =
        o.map fun v => ((name, v), rest) := by
  have hname := (stringText_string name).read (Byte.colon :: (gap ++ (t ++ (back ++ rest))))
  have hskip : skip (front ++ (string name ++ Byte.colon :: (gap ++ (t ++ (back ++ rest))))) =
      string name ++ Byte.colon :: (gap ++ (t ++ (back ++ rest))) :=
    skip_append hfront (by decide) _
  rw [← hskip] at hname
  rw [readMember_colon hname (skip_append blank_nil (by decide) _),
    h.readPadded_eq hn hgap hback hrest, Option.map_map]
  rfl

theorem Gives.read_eq {o : Option Value} (h : Gives t o) : read t = o := by
  have hclosed : Closed [] := fun _ hb => nomatch hb
  have hread := h.readPadded_eq (Nat.lt_succ_self _) blank_nil blank_nil hclosed
  simp only [List.append_nil, List.nil_append] at hread
  rw [read, hread]
  cases o <;> rfl

/-! ### Lists -/

/-- Items are read one by one, and none of them if one gives nothing. -/
theorem readItems_join {item : Bytes → Option (α × Bytes)} {close : Byte} {text : β → Bytes}
    {f : β → Option α} {l : List β} {back : Bytes} {n : Nat} (hne : l ≠ [])
    (hclose : close ≠ comma) (hdelimiter : isDelimiter close ∧ ¬ isBlank close) (hback : Blank back)
    (hitem : ∀ b ∈ l, ∀ back rest, Blank back → Closed rest →
      item (text b ++ (back ++ rest)) = (f b).map (·, rest))
    (hn : l.length ≤ n) (rest : Bytes) :
    readItems item close n (Bytes.join "," (l.map text) ++ (back ++ close :: rest)) =
      (l.mapM f).map (·, rest) := by
  induction l generalizing n with
  | nil => exact absurd rfl hne
  | cons b l ih =>
    obtain ⟨hb, hl⟩ := List.forall_mem_cons.1 hitem
    obtain ⟨n, rfl⟩ : ∃ m, n = m + 1 := ⟨n - 1, by rw [List.length_cons] at hn; omega⟩
    rw [List.mapM_cons]
    cases l with
    | nil =>
      have hread := hb back (close :: rest) hback (closed_cons hdelimiter rest)
      rw [List.map_singleton, Bytes.join_singleton]
      cases hf : f b with
      | none =>
        rw [hf] at hread
        exact readItems_none hread
      | some a =>
        rw [hf] at hread
        exact readItems_last hread
    | cons b' l =>
      -- Behind the first item stands a comma and what the induction is about.
      have hread :=
        hb [] (comma :: (Bytes.join "," ((b' :: l).map text) ++ (back ++ close :: rest)))
          blank_nil (closed_cons (by decide) _)
      have hjoin : Bytes.join "," ((b :: b' :: l).map text) =
          text b ++ comma :: Bytes.join "," ((b' :: l).map text) :=
        Bytes.join_cons_cons "," (text b) (text b') (l.map text)
      rw [hjoin, List.append_assoc, List.cons_append]
      rw [List.nil_append] at hread
      cases hf : f b with
      | none =>
        rw [hf] at hread
        exact readItems_none hread
      | some a =>
        rw [hf] at hread
        rw [readItems_more hclose hread, ih (List.cons_ne_nil _ _) hl (by simpa using hn)]
        cases (b' :: l).mapM f <;> rfl

/-- So is a list, whose items start with no byte that could close it. -/
theorem readList_join {item : Bytes → Option (α × Bytes)} {close : Byte} {text : β → Bytes}
    {f : β → Option α} {l : List β} {back : Bytes}
    (hclose : close ≠ comma) (hdelimiter : isDelimiter close ∧ ¬ isBlank close) (hback : Blank back)
    (hitem : ∀ b ∈ l, ∀ back rest, Blank back → Closed rest →
      item (text b ++ (back ++ rest)) = (f b).map (·, rest))
    (hstart : ∀ b ∈ l, ∀ rest, ∃ c u, skip (text b ++ rest) = c :: u ∧ c ≠ close) (rest : Bytes) :
    readList item close (Bytes.join "," (l.map text) ++ (back ++ close :: rest)) =
      (l.mapM f).map (·, rest) := by
  cases l with
  | nil => exact readList_close hdelimiter.2 hback
  | cons b l =>
    obtain ⟨more, hmore⟩ := Bytes.exists_join_cons "," (text b) (l.map text)
    rw [← List.map_cons] at hmore
    obtain ⟨c, u, hskip, hc⟩ := hstart b List.mem_cons_self (more ++ (back ++ close :: rest))
    rw [← List.append_assoc, ← hmore] at hskip
    rw [readList_items hskip hc]
    refine readItems_join (List.cons_ne_nil _ _) hclose hdelimiter hback hitem ?_ rest
    -- The reader tries as many items as there are bytes, which are not fewer than the items.
    have hcomma : ascii "," ≠ [] := by decide
    have hlength := Bytes.length_le_length_join hcomma ((b :: l).map text)
    simp only [List.length_append, List.length_cons, List.length_map] at hlength ⊢
    omega

/-- An array gives what its items give, and nothing if one of those gives nothing. -/
theorem gives_array {text : β → Bytes} {f : β → Option Value} {l : List β}
    (h : ∀ b ∈ l, Gives (text b) (f b)) :
    Gives (array (l.map text)) ((l.mapM f).map .array) := by
  have harray : array (l.map text) =
      openBracket :: (Bytes.join "," (l.map text) ++ [closeBracket]) := rfl
  refine ⟨⟨openBracket, _, harray, by decide⟩, ?_⟩
  rw [harray]
  rintro (_ | n) rest hn -
  · cases hn
  rw [List.length_cons, List.length_append] at hn
  have hread : readList (readPadded (readValue n)) closeBracket
      (Bytes.join "," (l.map text) ++ ([] ++ closeBracket :: rest)) = (l.mapM f).map (·, rest) := by
    refine readList_join (by decide) (by decide) blank_nil (fun b hb back rest hback hrest => ?_)
      (fun b hb rest => ?_) rest
    · have hlength := Bytes.length_le_join "," (List.mem_map_of_mem (f := text) hb)
      exact (h b hb).readPadded_eq (by omega) blank_nil hback hrest
    · obtain ⟨c, u, heq, hc, hclose⟩ := (h b hb).start
      rw [heq, List.cons_append]
      exact ⟨c, u ++ rest, skip_append blank_nil hc _, hclose⟩
  rw [List.nil_append] at hread
  rw [List.cons_append, List.append_assoc, List.singleton_append, readValue, hread, Option.map_map,
    Option.map_map]
  rfl

/-- The text of an object: so much stands in front of each name and of each value, and in
    front of the end. -/
def layout (front gap back : Bytes) (members : List (Bytes × Bytes)) : Bytes :=
  openBrace :: (Bytes.join "," (members.map fun m => front ++ string m.1 ++ ":" ++ gap ++ m.2) ++
    (back ++ [closeBrace]))

/-- An object gives the names with what their values give, and nothing if one of those gives
    nothing. -/
theorem gives_layout {front gap back : Bytes} (hfront : Blank front) (hgap : Blank gap)
    (hback : Blank back) {name text : β → Bytes} {f : β → Option Value} {l : List β}
    (h : ∀ b ∈ l, Gives (text b) (f b)) :
    Gives (layout front gap back (l.map fun b => (name b, text b)))
      ((l.mapM fun b => (f b).map (name b, ·)).map .object) := by
  let member := fun b => front ++ string (name b) ++ ":" ++ gap ++ text b
  have hlayout : layout front gap back (l.map fun b => (name b, text b)) =
      openBrace :: (Bytes.join "," (l.map member) ++ (back ++ [closeBrace])) := by
    rw [layout, List.map_map]
    rfl
  have hmember : ∀ b, member b = front ++ (string (name b) ++ Byte.colon :: (gap ++ text b)) := by
    intro b
    simp [member, ascii]
  refine ⟨⟨openBrace, _, rfl, by decide⟩, ?_⟩
  rw [hlayout]
  rintro (_ | n) rest hn -
  · cases hn
  rw [List.length_cons, List.length_append] at hn
  have hread : readList (readMember (readValue n)) closeBrace
      (Bytes.join "," (l.map member) ++ (back ++ closeBrace :: rest)) =
        (l.mapM fun b => (f b).map (name b, ·)).map (·, rest) := by
    refine readList_join (by decide) (by decide) hback (fun b hb back rest hback hrest => ?_)
      (fun b hb rest => ?_) rest
    · -- The text of a member is a part of the whole one, so it fits into the bound of the depth.
      have hlength := Bytes.length_le_join "," (List.mem_map_of_mem (f := member) hb)
      rw [hmember] at hlength ⊢
      simp only [List.length_append, List.length_cons] at hlength
      simp only [List.append_assoc, List.cons_append]
      rw [(h b hb).readMember_eq (by omega) hfront hgap hback hrest, Option.map_map]
      rfl
    · rw [hmember, List.append_assoc]
      exact ⟨Byte.quote, _, skip_append hfront (by decide) _, by decide⟩
  rw [List.cons_append, List.append_assoc, List.append_assoc, List.singleton_append, readValue,
    hread, Option.map_map, Option.map_map]
  rfl

theorem object_eq_layout (members : List (Bytes × Bytes)) :
    object members = layout [] [] [] members := by
  simp [object, layout, ascii]

/-- A member of an object whose value is written. -/
structure Member where
  name : Bytes
  text : Bytes
  value : Value
  gives : Gives text (some value)

namespace Member

def ofString (name s : Bytes) : Member := ⟨name, string s, .string s, gives_string s⟩

def ofInt (name : Bytes) (n : Int) : Member := ⟨name, Numeral.ofInt n, .number n 0, gives_ofInt n⟩

def ofBool (name : Bytes) (b : Bool) : Member := ⟨name, bool b, .bool b, gives_bool b⟩

end Member

theorem mapM_some (f : α → β) (l : List α) : (l.mapM fun a => some (f a)) = some (l.map f) :=
  List.mapM_pure

/-- What is made of each element. -/
theorem mapM_eq_some_iff {f : α → Option β} {l : List α} {r : List β} :
    l.mapM f = some r ↔ l.map f = r.map some := by
  induction l generalizing r with
  | nil => cases r <;> simp
  | cons a l ih =>
    rw [List.mapM_cons, List.map_cons]
    cases r with
    | nil => cases f a <;> cases l.mapM f <;> simp
    | cons b r =>
      rw [List.map_cons, List.cons.injEq, ← ih]
      cases f a <;> cases l.mapM f <;> simp

theorem exists_mapM_iff {f : α → Option β} {l : List α} :
    (∃ r, l.mapM f = some r) ↔ ∀ a ∈ l, (f a).isSome := by
  induction l with
  | nil => simp
  | cons a l ih =>
    rw [List.forall_mem_cons, ← ih, List.mapM_cons]
    cases f a <;> cases l.mapM f <;> simp

theorem mem_of_mapM {f : α → Option β} {l : List α} {r : List β} (h : l.mapM f = some r) {b : β} :
    b ∈ r ↔ ∃ a ∈ l, f a = some b := by
  rw [← List.mem_map, mapM_eq_some_iff.1 h, List.mem_map]
  simp

/-- What is known of an element of what is made of it. -/
theorem map_of_mapM {γ : Type} {f : α → Option β} {g : β → γ} {k : α → γ} {l : List α} {r : List β}
    (hf : ∀ a b, f a = some b → g b = k a) (h : l.mapM f = some r) : r.map g = l.map k := by
  rw [mapM_eq_some_iff] at h
  induction l generalizing r with
  | nil =>
    rw [List.map_eq_nil_iff.1 h.symm]
    rfl
  | cons a l ih =>
    obtain ⟨b, r, rfl, ha, hl⟩ := List.map_eq_cons_iff.1 h.symm
    rw [List.map_cons, List.map_cons, hf a b ha.symm, ih hl.symm]

/-- An array of values that are written gives them. -/
theorem gives_values {text : β → Bytes} {value : β → Value} (l : List β)
    (h : ∀ b ∈ l, Gives (text b) (some (value b))) :
    Gives (array (l.map text)) (some (.array (l.map value))) := by
  have hgives := gives_array h
  rwa [mapM_some] at hgives

/-- An object of members that are written gives them. -/
theorem gives_object (members : List Member) :
    Gives (object (members.map fun m => (m.name, m.text)))
      (some (.object (members.map fun m => (m.name, m.value)))) := by
  have hmembers : ∀ m ∈ members, Gives m.text (some m.value) := fun m _ => m.gives
  have hgives : Gives (layout [] [] [] (members.map fun m => (m.name, m.text)))
      ((members.mapM fun m => some (m.name, m.value)).map .object) :=
    gives_layout blank_nil blank_nil blank_nil hmembers
  rwa [← object_eq_layout, mapM_some] at hgives

end PageServer.Json
