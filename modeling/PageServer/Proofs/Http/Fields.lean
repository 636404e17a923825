import PageServer.Proofs.Http.Response
import Mathlib.Data.List.Dedup

/-!
# Fields that are written twice

Three fields a response writes itself: `Content-Type`, `Content-Length` and `Connection`
(`Response.ownNames`). A reader finds each of them in the head, with the letter case of names
set aside (`Reader.fields?`), and finds it twice just if something that reads like it was stored
under another name (`Response.Repeats`): a stored `Connection` is left out in any letter case,
while the other two are told by their very names only.
-/

namespace PageServer.Http

namespace Reader

/-- The fields that a reader finds in a head. -/
def fields? (bytes : Bytes) : Option (List (Bytes × Bytes)) :=
  (cut bytes).map fun p => p.1.lines.tail.filterMap field?

/-- The name by which a reader finds a field: what stands in front of the first colon. -/
def foundName (name : Bytes) : Bytes := (name.break1 Byte.colon).1

theorem foundName_of_not_mem {name : Bytes} (h : Byte.colon ∉ name) : foundName name = name := by
  rw [foundName, Bytes.break1_of_not_mem h]

/-- A name that is the same as one without a colon has none. -/
theorem foundName_of_sameFolded {name own : Bytes} (hown : Byte.colon ∉ own.lower)
    (h : name.sameFolded own) : foundName name = name := by
  refine foundName_of_not_mem fun hcolon => hown ?_
  rw [← Bytes.sameFolded_iff.1 h]
  exact List.mem_map.2 ⟨Byte.colon, hcolon, by decide⟩

/-- Every field is found, under a name that its own tells. -/
theorem exists_field? (f : Bytes × Bytes) :
    ∃ value, field? (Response.fieldText f) = some (foundName f.1, value) := by
  by_cases hcolon : Byte.colon ∈ f.1
  · obtain ⟨name, rest, hname, hfirst⟩ := List.eq_append_cons_of_mem hcolon
    have htext : Response.fieldText f = name ++ Byte.colon :: (rest ++ (": " ++ f.2)) := by
      simp [Response.fieldText, hname]
    refine ⟨Bytes.trim (rest ++ (": " ++ f.2)), ?_⟩
    rw [field?, htext, Bytes.break1_append hfirst, foundName, hname, Bytes.break1_append hfirst]
  · exact ⟨_, (field?_fieldText hcolon).trans (by rw [foundName_of_not_mem hcolon])⟩

end Reader

/-- The name under which a setting stores something. -/
def Setting.name? : Setting → Option Bytes
  | .field name _ => some name
  | .type _ => some "Content-Type"
  | .content _ => some "Content-Length"
  | _ => none

namespace Response

open Reader

variable {r : Response} {own name : Bytes}

/-! ### Stored names -/

theorem mem_keys_withField (r : Response) (k value : Bytes) :
    name ∈ (r.withField k value).fields.keys ↔ name = k ∨ name ∈ r.fields.keys := by
  rw [Table.mem_keys_iff, Table.mem_keys_iff, withField, Table.get?_insert]
  by_cases hk : name = k
  · simp [hk, Std.ReflCmp.compare_self]
  · have hne : compare name k ≠ .eq := fun heq => hk (Std.LawfulEqCmp.eq_of_compare heq)
    rw [if_neg hne, or_iff_right hk]

/-- The stored names are those that were set. -/
theorem mem_keys_build {settings : List Setting} :
    name ∈ (build settings).fields.keys ↔ ∃ s ∈ settings, s.name? = some name := by
  induction settings using List.reverseRecOn with
  | nil => simp [build, Table.keys, Table.empty]
  | append_singleton settings s ih =>
    have hset : name ∈ ((build settings).set s).fields.keys ↔
        s.name? = some name ∨ name ∈ (build settings).fields.keys := by
      cases s with
      | field k value => simp [set, mem_keys_withField, Setting.name?, eq_comm]
      | type value => simp [set, withType, mem_keys_withField, Setting.name?, eq_comm]
      | content content =>
        change name ∈ (withField { build settings with content } _ _).fields.keys ↔ _
        simp [mem_keys_withField, Setting.name?, eq_comm]
      | status _ | reason _ | version _ | close _ => simp [set, withStatus, Setting.name?]
    rw [build_snoc, hset, ih]
    simp only [List.mem_append, List.mem_singleton, or_and_right, exists_or, exists_eq_left,
      or_comm]

/-! ### Fields that are found twice -/

/-- What is stored under the name is found as a field that the response writes itself. -/
def Repeats (own name : Bytes) : Prop :=
  (foundName name).sameFolded own ∧
    if own = "Connection" then ¬ name.sameFolded own else name ≠ own

instance (own name : Bytes) : Decidable (Repeats own name) :=
  inferInstanceAs (Decidable (_ ∧ ite _ _ _))

/-- The fields of the head are found as they are written. -/
theorem fields?_head (h : r.Unbroken) :
    ∃ fields, fields? r.head = some fields ∧ ∀ own : Bytes,
      fields.countP (·.1.sameFolded own) =
        r.written.countP fun f => (foundName f.1).sameFolded own := by
  obtain ⟨head, hcut, hlines⟩ := cut_ended h.statusText_oneLine h.fieldLines_oneLine []
  refine ⟨r.fieldLines.filterMap field?, ?_, fun own => ?_⟩
  · rw [fields?, head_eq, hcut, Option.map_some, hlines, List.tail_cons]
  · rw [fieldLines, List.filterMap_map, List.countP_filterMap]
    refine List.countP_congr fun f _ => ?_
    obtain ⟨value, hvalue⟩ := exists_field? f
    rw [Function.comp_apply, hvalue]
    rfl

/-- A stored name that is found as `Content-Type` or `Content-Length` is not left out as a
    `Connection` is. -/
theorem written_of_repeats (hown : own ∈ ownNames) (hne : own ≠ "Connection") :
    ((foundName name).sameFolded own && !name.sameFolded "Connection" && !decide (name = own)) =
      decide (Repeats own name) := by
  have hcolon : Byte.colon ∉ Bytes.lower "Connection" := by decide
  have hother : ∀ own ∈ ownNames, own ≠ "Connection" → own.lower ≠ Bytes.lower "Connection" := by
    decide
  have hkept : (foundName name).sameFolded own → ¬ name.sameFolded "Connection" := by
    intro hfound hconnection
    rw [foundName_of_sameFolded hcolon hconnection, Bytes.sameFolded_iff] at hfound
    exact hother own hown hne (hfound.symm.trans (Bytes.sameFolded_iff.1 hconnection))
  rw [Bool.eq_iff_iff]
  simp only [Repeats, if_neg hne, Bool.and_eq_true, Bool.not_eq_true', decide_eq_true_eq,
    decide_eq_false_iff_not]
  constructor
  · rintro ⟨⟨hfound, -⟩, hname⟩
    exact ⟨hfound, hname⟩
  · rintro ⟨hfound, hname⟩
    exact ⟨⟨hfound, Bool.eq_false_iff.2 (hkept hfound)⟩, hname⟩

/-- Of the stored fields those are found that repeat one of the response's own, and the one
    that is stored under its very name. -/
theorem countP_storedFields (hown : own ∈ ownNames)
    (hne : own ≠ "Connection") :
    r.storedFields.countP (fun f => (foundName f.1).sameFolded own) =
      (if r.fields.contains own then 1 else 0) +
        r.fields.entries.countP (fun f => Repeats own f.1) := by
  have hitself : ∀ own ∈ ownNames, own ≠ "Connection" →
      ((foundName own).sameFolded own && !own.sameFolded "Connection") = true := by decide
  -- The table has at most one field under the very name.
  rw [storedFields, List.countP_filter, List.countP_eq_countP_filter_add _ _ (·.1 = own),
    Table.filter_key, List.countP_filter]
  congr 1
  · rw [Table.contains]
    cases r.fields.get? own with
    | none => rfl
    | some value => simpa using hitself own hown hne
  · refine List.countP_congr fun f _ => ?_
    rw [← Bool.eq_iff_iff, ← written_of_repeats hown hne]

/-- Besides the field that a response writes itself, those are found that repeat it. -/
theorem countP_written (hown : own ∈ ownNames) :
    r.written.countP (fun f => (foundName f.1).sameFolded own) =
      1 + r.fields.entries.countP (fun f => Repeats own f.1) := by
  rw [written, List.countP_append, List.countP_append]
  by_cases hne : own = "Connection"
  · -- A stored name that is found as `Connection` is written if it is more than that name folded.
    subst hne
    have hstored : r.storedFields.countP (fun f => (foundName f.1).sameFolded "Connection") =
        r.fields.entries.countP (fun f => Repeats "Connection" f.1) := by
      rw [storedFields, List.countP_filter]
      refine List.countP_congr fun f _ => ?_
      simp [Repeats]
    have hdefaults : r.defaults.countP (fun f => (foundName f.1).sameFolded "Connection") = 0 := by
      rw [defaults]
      split_ifs <;> rfl
    rw [hstored, hdefaults, Nat.add_comm]
    rfl
  · -- The other two are added where they are not stored.
    have hadded : r.defaults.countP (fun f => (foundName f.1).sameFolded own) =
        if r.fields.contains own then 0 else 1 := by
      rw [defaults]
      simp only [ownNames, List.mem_cons, List.not_mem_nil, or_false] at hown
      rcases hown with rfl | rfl | rfl
      · split_ifs <;> rfl
      · split_ifs <;> rfl
      · exact absurd rfl hne
    have hconnection : [(("Connection" : Bytes), r.connectionText)].countP
        (fun f => (foundName f.1).sameFolded own) = 0 := by
      have hother : ∀ own ∈ ownNames, own ≠ "Connection" →
          (foundName "Connection").sameFolded own = false := by decide
      rw [List.countP_singleton, hother own hown hne]
      rfl
    rw [countP_storedFields hown hne, hadded, hconnection]
    split_ifs <;> omega

/-- The names that were set. -/
def namesOf (settings : List Setting) : List Bytes := (settings.filterMap Setting.name?).dedup

theorem perm_namesOf (settings : List Setting) :
    (build settings).fields.keys.Perm (namesOf settings) := by
  refine (List.perm_ext_iff_of_nodup (Table.nodup_keys _) (List.nodup_dedup _)).2
    fun name => ?_
  rw [mem_keys_build, List.mem_dedup, List.mem_filterMap]

/-- Only names of fields that were added can repeat one of the response's own. -/
theorem not_repeats_iff (settings : List Setting) (hown : own ∈ ownNames) :
    (∀ name ∈ namesOf settings, ¬ Repeats own name) ↔
      ∀ name value, Setting.field name value ∈ settings → ¬ Repeats own name := by
  have hset : ∀ own ∈ ownNames, ¬ Repeats own "Content-Type" ∧ ¬ Repeats own "Content-Length" := by
    decide
  simp only [namesOf, List.mem_dedup, List.mem_filterMap]
  constructor
  · exact fun h name value hmem => h name ⟨_, hmem, rfl⟩
  · rintro h name ⟨s, hs, hname⟩
    cases s with
    | field k value =>
      cases hname
      exact h name value hs
    | type value =>
      cases hname
      exact (hset own hown).1
    | content content =>
      cases hname
      exact (hset own hown).2
    | status _ | reason _ | version _ | close _ => cases hname

/-- In the head of any response without line ends in its texts each of the response's own
    fields is found once, and once more for each name that repeats it. So it is found just once
    if no field was added under such a name: one that reads the same in front of its first colon,
    but for letter case, and is another name, or, for `Connection`, differs in more than letter
    case. -/
theorem head_fields_once {settings : List Setting} (h : ∀ s ∈ settings, s.Unbroken) :
    ∃ fields, fields? (build settings).head = some fields ∧ ∀ own ∈ ownNames,
      fields.countP (·.1.sameFolded own) =
          1 + (namesOf settings).countP (fun name => Repeats own name) ∧
        ((∃ f, fields.filter (·.1.sameFolded own) = [f]) ↔
          ∀ name value, Setting.field name value ∈ settings → ¬ Repeats own name) := by
  obtain ⟨fields, hfields, hcount⟩ := fields?_head (unbroken_build h)
  refine ⟨fields, hfields, fun own hown => ?_⟩
  have htotal : fields.countP (·.1.sameFolded own) =
      1 + (namesOf settings).countP (fun name => Repeats own name) := by
    rw [hcount, countP_written hown,
      ← (perm_namesOf settings).countP_eq, Table.keys, List.countP_map]
    rfl
  refine ⟨htotal, ?_⟩
  rw [← not_repeats_iff settings hown, ← List.length_eq_one_iff, ← List.countP_eq_length_filter,
    htotal, Nat.add_eq_left, List.countP_eq_zero]
  simp

/-- A stored `connection` is left out, and a stored `Content-Type` is the only one. -/
theorem head_fields_once_stored :
    ∃ fields, fields? (build [.status 200, .field "connection" "close", .type "a/b",
        .field "X" "content-length", .content (.streamed "x")]).head = some fields ∧
      ∀ own ∈ ownNames, ∃ f, fields.filter (·.1.sameFolded own) = [f] := by
  have hunbroken : ∀ s ∈ ([.status 200, .field "connection" "close", .type "a/b",
      .field "X" "content-length", .content (.streamed "x")] : List Setting), s.Unbroken := by
    simp only [List.forall_mem_cons, List.not_mem_nil, false_imp_iff, implies_true, and_true,
      Setting.Unbroken]
    decide
  have hnames : ∀ own ∈ ownNames, ¬ Repeats own "connection" ∧ ¬ Repeats own "X" := by decide
  obtain ⟨fields, hfields, honce⟩ := head_fields_once hunbroken
  refine ⟨fields, hfields, fun own hown => (honce own hown).2.2 fun name value hmem => ?_⟩
  simp only [List.mem_cons, Setting.field.injEq, reduceCtorEq, List.not_mem_nil, or_false,
    false_or] at hmem
  rcases hmem with ⟨rfl, -⟩ | ⟨rfl, -⟩
  · exact (hnames own hown).1
  · exact (hnames own hown).2

/-- A length that was added in another letter case is found beside the one of the content. -/
theorem head_fields_twice :
    ¬ ∀ settings : List Setting, (∀ s ∈ settings, s.Unbroken) →
      ∃ fields, fields? (build settings).head = some fields ∧
        ∀ own ∈ ownNames, ∃ f, fields.filter (·.1.sameFolded own) = [f] := by
  intro hall
  have hunbroken : ∀ s ∈ ([.field "content-length" "5"] : List Setting), s.Unbroken := by
    simp only [List.forall_mem_singleton, Setting.Unbroken]
    decide
  have htwice : (fields? (build [.field "content-length" "5"]).head).map
      (·.filter (·.1.sameFolded "Content-Length")) =
        some [(("content-length" : Bytes), ("5" : Bytes)),
          (("Content-Length" : Bytes), ("0" : Bytes))] := by decide +kernel
  obtain ⟨fields, hfields, hone⟩ := hall _ hunbroken
  obtain ⟨f, hf⟩ := hone "Content-Length" (by decide)
  rw [hfields, Option.map_some, hf] at htwice
  cases htwice

end Response

end PageServer.Http
