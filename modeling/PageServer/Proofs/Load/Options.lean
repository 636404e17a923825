import PageServer.Load.Options
import PageServer.Proofs.Http.Target
import PageServer.Proofs.Numeral
import Mathlib.Data.List.Nodup

/-!
# Load options in a query

What parameters ask for is told of the value that each name has, which is the last one in
the query: some values are none of the options (`LoadOptions.Refused`), and the other ones
say what the options are (`LoadOptions.Asked`). Reading the options of a target comes to one
of the two (`LoadOptions.ofTarget_cases`).

There are many ways to write options as parameters: in any order, among other parameters,
with names and numbers spelled in any way, and with options told that are as they are
without being told (`LoadOptions.Written`). In whichever way they are written, they are read
back (`LoadOptions.ofTarget_exact`).
-/

namespace PageServer

open Http (Target)
open Http.Target (Reading WrittenTarget)

namespace LoadOperation

theorem ofName?_eq_some_iff {name : Bytes} {op : LoadOperation} :
    ofName? name = some op ↔ name.sameFolded op.name := by
  have hupper : op.name.upper = op.name := by cases op <;> rfl
  have hname : op.name = name.upper ↔ name.sameFolded op.name := by
    rw [← Bytes.upper_eq_upper_iff, hupper, eq_comm]
  rw [← hname, ofName?]
  constructor
  · intro h
    simpa using List.find?_some h
  · intro h
    rw [← h]
    cases op <;> rfl

/-- A name is that of one operation. -/
theorem eq_of_sameFolded {name : Bytes} {op op' : LoadOperation} (h : name.sameFolded op.name)
    (h' : name.sameFolded op'.name) : op = op' :=
  Option.some.inj ((ofName?_eq_some_iff.2 h).symm.trans (ofName?_eq_some_iff.2 h'))

end LoadOperation

namespace LoadOptions

variable {value? : Bytes → Option Bytes} {o o' : LoadOptions} {t : Target}

/-! ### What parameters ask for -/

/-- The options that are on or off, with their names. -/
def flags (o : LoadOptions) : List (Bytes × Bool) :=
  [("partialListing", o.partialListing), ("verify", o.verify), ("verbose", o.verbose),
    ("loadMetadataOnly", o.metadataOnly), ("skipIfExists", o.skipExisting)]

/-- The operation has a name that no operation has, in any letter case. -/
def UnknownOperation (value? : Bytes → Option Bytes) : Prop :=
  ∃ name ∈ value? "opType", ∀ op : LoadOperation, ¬ name.sameFolded op.name

/-- The bandwidth is no number of sixty-four bits above zero. -/
def BadBandwidth (value? : Bytes → Option Bytes) : Prop :=
  ∃ text ∈ value? "bandwidth", ¬ ∃ n, Numeral.Int64Text text n ∧ 0 < n

/-- The progress format is neither of the two, in any letter case. -/
def UnknownFormat (value? : Bytes → Option Bytes) : Prop :=
  ∃ name ∈ value? "progressFormat", ¬ name.sameFolded "TEXT" ∧ ¬ name.sameFolded "JSON"

/-- Some value is none of an option. -/
def Refused (value? : Bytes → Option Bytes) : Prop :=
  UnknownOperation value? ∨ BadBandwidth value? ∨ UnknownFormat value?

/-- The options are those that the values say. An option without a value is as it is by
    default. -/
structure Asked (value? : Bytes → Option Bytes) (o : LoadOptions) : Prop where
  operation : ∀ op, o.operation = some op ↔ ∃ name ∈ value? "opType", name.sameFolded op.name
  bandwidth : ∀ n, o.bandwidth = some n ↔ ∃ text ∈ value? "bandwidth", Numeral.Int64Text text n
  format : o.progressFormat = (value? "progressFormat").getD "TEXT"
  filter : o.filter = value? "fileFilterRegx"
  flags : ∀ f ∈ o.flags, f.2 = true ↔ ∃ text ∈ value? f.1, text.sameFolded "true"

/-- No other options are asked for. -/
theorem Asked.unique (h : Asked value? o) (h' : Asked value? o') : o = o' := by
  have hoperation : o.operation = o'.operation :=
    Option.ext fun op => (h.operation op).trans (h'.operation op).symm
  have hbandwidth : o.bandwidth = o'.bandwidth :=
    Option.ext fun n => (h.bandwidth n).trans (h'.bandwidth n).symm
  have hflag : ∀ {name on on'}, (name, on) ∈ o.flags → (name, on') ∈ o'.flags → on = on' :=
    fun hon hon' => Bool.eq_iff_iff.2 ((h.flags _ hon).trans (h'.flags _ hon').symm)
  have hfilter := h.filter.trans h'.filter.symm
  have hformat := h.format.trans h'.format.symm
  have hpartial := @hflag "partialListing" o.partialListing o'.partialListing
  have hverify := @hflag "verify" o.verify o'.verify
  have hverbose := @hflag "verbose" o.verbose o'.verbose
  have hmetadata := @hflag "loadMetadataOnly" o.metadataOnly o'.metadataOnly
  have hskip := @hflag "skipIfExists" o.skipExisting o'.skipExisting
  simp only [LoadOptions.flags, List.mem_cons, true_or, or_true, forall_const] at *
  cases o
  cases o'
  simp_all

/-! ### Reading options -/

theorem operationOf_cases (t : Target) :
    (UnknownOperation t.get? ∧ ∃ f, operationOf t = .error f) ∨
      ¬ UnknownOperation t.get? ∧ ∃ x, operationOf t = .ok x ∧
        ∀ op, x = some op ↔ ∃ name ∈ t.get? "opType", name.sameFolded op.name := by
  rw [UnknownOperation, operationOf]
  cases t.get? "opType" with
  | none => exact .inr ⟨by simp, _, rfl, by simp⟩
  | some name =>
    simp only [Option.mem_some_iff, exists_eq_left', ← LoadOperation.ofName?_eq_some_iff]
    cases LoadOperation.ofName? name with
    | none => exact .inl ⟨nofun, _, rfl⟩
    | some op => exact .inr ⟨fun h => h op rfl, _, rfl, fun _ => Iff.rfl⟩

theorem bandwidthOf_cases (t : Target) :
    (BadBandwidth t.get? ∧ ∃ f, bandwidthOf t = .error f) ∨
      ¬ BadBandwidth t.get? ∧ ∃ x, bandwidthOf t = .ok x ∧
        ∀ n, x = some n ↔ ∃ text ∈ t.get? "bandwidth", Numeral.Int64Text text n := by
  rw [BadBandwidth, bandwidthOf, Target.number?]
  cases t.get? "bandwidth" with
  | none => exact .inr ⟨by simp, _, rfl, by simp⟩
  | some text =>
    simp only [Option.mem_some_iff, exists_eq_left', Target.readNumber,
      ← Numeral.exactSigned_eq_some_iff]
    cases Numeral.exactSigned text with
    | none => exact .inl ⟨nofun, _, rfl⟩
    | some n =>
      by_cases hn : n ≤ 0
      · exact .inl ⟨by simpa using hn, _, if_pos hn⟩
      · exact .inr ⟨by simpa using hn, _, if_neg hn, fun _ => Iff.rfl⟩

theorem formatOf_cases (t : Target) (default : Bytes) :
    (UnknownFormat t.get? ∧ ∃ f, formatOf t default = .error f) ∨
      ¬ UnknownFormat t.get? ∧
        formatOf t default = .ok ((t.get? "progressFormat").getD default) := by
  simp only [UnknownFormat, formatOf]
  cases t.get? "progressFormat" with
  | none => exact .inr ⟨by simp, rfl⟩
  | some name =>
    by_cases hname : isFormat name
    · refine .inr ⟨?_, if_pos hname⟩
      rintro ⟨_, ⟨⟩, hunknown⟩
      simp [isFormat, hunknown] at hname
    · refine .inl ⟨⟨name, rfl, ?_⟩, _, if_neg hname⟩
      simpa [isFormat] using hname

theorem flag?_getD_iff (t : Target) (key : Bytes) :
    (t.flag? key).getD false = true ↔ ∃ text ∈ t.get? key, text.sameFolded "true" := by
  rw [Target.flag?]
  cases t.get? key <;> simp

/-- Either some value is refused, or the options are those asked for. -/
theorem ofTarget_cases (t : Target) :
    (Refused t.get? ∧ ∃ f, ofTarget t = .error f) ∨
      ¬ Refused t.get? ∧ ∃ o, ofTarget t = .ok o ∧ Asked t.get? o := by
  rcases operationOf_cases t with ⟨hbad, f, hf⟩ | ⟨hoperation, op, hop, hopOf⟩
  · exact .inl ⟨.inl hbad, f, by rw [ofTarget, hf]; rfl⟩
  rcases bandwidthOf_cases t with ⟨hbad, f, hf⟩ | ⟨hbandwidth, n, hn, hnOf⟩
  · exact .inl ⟨.inr (.inl hbad), f, by rw [ofTarget, hop, hf]; rfl⟩
  rcases formatOf_cases t ({} : LoadOptions).progressFormat with ⟨hbad, f, hf⟩ | ⟨hformat, hf⟩
  · exact .inl ⟨.inr (.inr hbad), f, by rw [ofTarget, hop, hn, hf]; rfl⟩
  refine .inr ⟨fun h => h.elim hoperation fun h => h.elim hbandwidth hformat, _,
    by rw [ofTarget, hop, hn, hf]; rfl, hopOf, hnOf, rfl, rfl, ?_⟩
  simp only [LoadOptions.flags, List.forall_mem_cons, List.not_mem_nil, false_imp_iff, implies_true,
    and_true]
  exact ⟨flag?_getD_iff t _, flag?_getD_iff t _, flag?_getD_iff t _, flag?_getD_iff t _,
    flag?_getD_iff t _⟩

/-! ### Writing options -/

/-- The options that are not as by default, each told in one way. -/
def settings (o : LoadOptions) : List (Bytes × Bytes) :=
  (o.operation.toList.map fun op => (("opType" : Bytes), op.name)) ++
    (o.bandwidth.toList.map fun n => (("bandwidth" : Bytes), Numeral.ofInt n)) ++
    (if o.progressFormat = "TEXT" then [] else [(("progressFormat" : Bytes), o.progressFormat)]) ++
    (o.filter.toList.map fun text => (("fileFilterRegx" : Bytes), text)) ++
    (o.flags.filter (·.2)).map fun f => (f.1, ("true" : Bytes))

/-- The parameter tells what the option with its name is, if there is one. -/
structure Tells (o : LoadOptions) (key value : Bytes) : Prop where
  operation : key = "opType" → ∃ op ∈ o.operation, value.sameFolded op.name
  bandwidth : key = "bandwidth" → ∃ n ∈ o.bandwidth, Numeral.Int64Text value n
  format : key = "progressFormat" → value = o.progressFormat
  filter : key = "fileFilterRegx" → o.filter = some value
  flags : ∀ f ∈ o.flags, key = f.1 → f.2 = value.sameFolded "true"

/-- The parameters tell the options: all of them that are not as by default, and nothing
    else of any option. -/
structure Written (o : LoadOptions) (pairs : List (Bytes × Bytes)) : Prop where
  tells : ∀ pair ∈ pairs, o.Tells pair.1 pair.2
  settings : ∀ s ∈ o.settings, s.1 ∈ pairs.map (·.1)

/-- The options can be told by parameters. -/
structure Writable (o : LoadOptions) : Prop where
  bandwidth : ∀ n ∈ o.bandwidth, 0 < n ∧ n ≤ int64Max
  format : o.progressFormat.sameFolded "TEXT" ∨ o.progressFormat.sameFolded "JSON"
  filter : ∀ text ∈ o.filter, Byte.ampersand ∉ text

instance (o : LoadOptions) (key value : Bytes) : Decidable (o.Tells key value) :=
  decidable_of_iff
    ((key = "opType" → ∃ op ∈ o.operation, value.sameFolded op.name) ∧
      (key = "bandwidth" → ∃ n ∈ o.bandwidth, Numeral.exactSigned value = some n) ∧
      (key = "progressFormat" → value = o.progressFormat) ∧
      (key = "fileFilterRegx" → o.filter = some value) ∧
      ∀ f ∈ o.flags, key = f.1 → f.2 = value.sameFolded "true") <| by
    simp only [Numeral.exactSigned_eq_some_iff]
    exact ⟨fun ⟨h₁, h₂, h₃, h₄, h₅⟩ => ⟨h₁, h₂, h₃, h₄, h₅⟩,
      fun ⟨h₁, h₂, h₃, h₄, h₅⟩ => ⟨h₁, h₂, h₃, h₄, h₅⟩⟩

variable {pairs : List (Bytes × Bytes)}

/-- The value of the last pair with the key. -/
def lastValue (pairs : List (Bytes × Bytes)) (key : Bytes) : Option Bytes :=
  (pairs.reverse.find? (·.1 = key)).map (·.2)

theorem mem_of_lastValue {key value : Bytes} (h : lastValue pairs key = some value) :
    (key, value) ∈ pairs := by
  obtain ⟨pair, hpair, rfl⟩ := Option.map_eq_some_iff.1 h
  obtain rfl : pair.1 = key := by simpa using List.find?_some hpair
  exact List.mem_reverse.1 (List.mem_of_find?_eq_some hpair)

theorem exists_lastValue {key : Bytes} (h : key ∈ pairs.map (·.1)) :
    ∃ v, lastValue pairs key = some v := by
  obtain ⟨pair, hpair, rfl⟩ := List.mem_map.1 h
  rw [lastValue, ← Option.isSome_iff_exists, Option.isSome_map, List.find?_isSome]
  exact ⟨_, List.mem_reverse.2 hpair, by simp⟩

/-- An option that is not as by default has a value, which tells what it is. -/
theorem Written.told (h : o.Written pairs) {s : Bytes × Bytes} (hs : s ∈ o.settings) :
    ∃ value ∈ lastValue pairs s.1, o.Tells s.1 value := by
  obtain ⟨value, hvalue⟩ := exists_lastValue (h.settings s hs)
  exact ⟨value, hvalue, h.tells _ (mem_of_lastValue hvalue)⟩

/-- Options are asked for by the parameters that tell them. -/
theorem Written.asked (h : o.Written pairs) : Asked (lastValue pairs) o where
  operation op := by
    constructor
    · intro hop
      obtain ⟨name, hname, htells⟩ := h.told (s := ("opType", op.name))
        (by simp [LoadOptions.settings, hop])
      obtain ⟨op', hop', hsame⟩ := htells.operation rfl
      obtain rfl := Option.some.inj (hop.symm.trans hop')
      exact ⟨name, hname, hsame⟩
    · rintro ⟨name, hname, hsame⟩
      obtain ⟨op', hop', hsame'⟩ := (h.tells _ (mem_of_lastValue hname)).operation rfl
      rw [hop', LoadOperation.eq_of_sameFolded hsame hsame']
  bandwidth n := by
    constructor
    · intro hn
      obtain ⟨text, hvalue, htells⟩ := h.told (s := ("bandwidth", Numeral.ofInt n))
        (by simp [LoadOptions.settings, hn])
      obtain ⟨n', hn', hdenotes⟩ := htells.bandwidth rfl
      obtain rfl := Option.some.inj (hn.symm.trans hn')
      exact ⟨text, hvalue, hdenotes⟩
    · rintro ⟨text, hvalue, hdenotes⟩
      obtain ⟨n', hn', hdenotes'⟩ := (h.tells _ (mem_of_lastValue hvalue)).bandwidth rfl
      rw [hn', ← Numeral.exactSigned_eq_some_iff.2 hdenotes']
      exact Numeral.exactSigned_eq_some_iff.2 hdenotes
  format := by
    cases hvalue : lastValue pairs "progressFormat" with
    | some name => exact ((h.tells _ (mem_of_lastValue hvalue)).format rfl).symm
    | none =>
      -- A format that is not as by default would have been told.
      by_contra hne
      obtain ⟨_, hsome, -⟩ := h.told (s := ("progressFormat", o.progressFormat)) (by
        rw [LoadOptions.settings, if_neg (show o.progressFormat ≠ "TEXT" from hne)]
        simp)
      rw [hvalue] at hsome
      cases hsome
  filter := by
    cases hvalue : lastValue pairs "fileFilterRegx" with
    | some text => exact (h.tells _ (mem_of_lastValue hvalue)).filter rfl
    | none =>
      refine Option.eq_none_iff_forall_ne_some.2 fun text htext => ?_
      obtain ⟨_, hsome, -⟩ := h.told (s := ("fileFilterRegx", text))
        (by simp [LoadOptions.settings, htext])
      rw [hvalue] at hsome
      cases hsome
  flags f hf := by
    constructor
    · intro hon
      obtain ⟨text, hvalue, htells⟩ := h.told (s := (f.1, "true"))
        (List.mem_append_right _ (List.mem_map_of_mem (List.mem_filter.2 ⟨hf, hon⟩)))
      exact ⟨text, hvalue, (htells.flags f hf rfl).symm.trans hon⟩
    · rintro ⟨text, hvalue, hsame⟩
      exact ((h.tells _ (mem_of_lastValue hvalue)).flags f hf rfl).trans hsame

/-- None of the values that tell options is refused. -/
theorem Written.not_refused (h : o.Written pairs) (ho : o.Writable) :
    ¬ Refused (lastValue pairs) := by
  rintro (⟨name, hname, hbad⟩ | ⟨text, htext, hbad⟩ | ⟨name, hname, hbad⟩)
  · obtain ⟨op, -, hsame⟩ := (h.tells _ (mem_of_lastValue hname)).operation rfl
    exact hbad op hsame
  · obtain ⟨n, hn, hdenotes⟩ := (h.tells _ (mem_of_lastValue htext)).bandwidth rfl
    exact hbad ⟨n, hdenotes, (ho.bandwidth n hn).1⟩
  · obtain rfl := (h.tells _ (mem_of_lastValue hname)).format rfl
    exact ho.format.elim hbad.1 hbad.2

/-- Options are read back from the parameters that tell them. -/
theorem Written.ofTarget_eq (h : o.Written pairs) (ho : o.Writable)
    (ht : t.get? = lastValue pairs) : ofTarget t = .ok o := by
  rcases ofTarget_cases t with ⟨hrefused, -⟩ | ⟨-, o', ho', hasked⟩
  · rw [ht] at hrefused
    exact absurd hrefused (h.not_refused ho)
  · rw [ht] at hasked
    rw [ho', hasked.unique h.asked]

/-! ### One way to write options -/

/-- The names of the options that are on or off. -/
def flagNames : List Bytes :=
  ["partialListing", "verify", "verbose", "loadMetadataOnly", "skipIfExists"]

theorem flags_map_fst (o : LoadOptions) : o.flags.map (·.1) = flagNames := rfl

theorem name_mem_of_mem_flags {f : Bytes × Bool} (h : f ∈ o.flags) : f.1 ∈ flagNames := by
  rw [← flags_map_fst o]
  exact List.mem_map_of_mem h

/-- An option that is on or off has one name. -/
theorem eq_of_mem_flags {f f' : Bytes × Bool} (h : f ∈ o.flags) (h' : f' ∈ o.flags)
    (heq : f.1 = f'.1) : f = f' := by
  have hnodup : (o.flags.map (·.1)).Nodup := by
    rw [flags_map_fst]
    decide
  exact List.inj_on_of_nodup_map hnodup h h' heq

/-- What holds of an option of each kind holds of all options that are not as by default. -/
theorem forall_mem_settings {p : Bytes → Bytes → Prop}
    (operation : ∀ op, o.operation = some op → p "opType" op.name)
    (bandwidth : ∀ n, o.bandwidth = some n → p "bandwidth" (Numeral.ofInt n))
    (format : p "progressFormat" o.progressFormat)
    (filter : ∀ text, o.filter = some text → p "fileFilterRegx" text)
    (flag : ∀ f ∈ o.flags, f.2 = true → p f.1 "true") : ∀ s ∈ o.settings, p s.1 s.2 := by
  intro s hs
  simp only [settings, List.mem_append, List.mem_map, Option.mem_toList, List.mem_filter] at hs
  rcases hs with (((⟨op, hop, rfl⟩ | ⟨n, hn, rfl⟩) | hs) | ⟨text, htext, rfl⟩) | ⟨f, hf, rfl⟩
  · exact operation op hop
  · exact bandwidth n hn
  · split at hs
    · cases hs
    · rw [List.mem_singleton.1 hs]
      exact format
  · exact filter text htext
  · exact flag f hf.1 hf.2

/-- The options that are not as by default tell the options. -/
theorem Writable.written_settings (h : o.Writable) : o.Written o.settings := by
  have hflags : ∀ {key value : Bytes}, key ∉ flagNames →
      ∀ f ∈ o.flags, key = f.1 → f.2 = value.sameFolded "true" := fun hkey f hf heq =>
    absurd (heq ▸ name_mem_of_mem_flags hf) hkey
  refine ⟨forall_mem_settings (fun op hop => ?_) (fun n hn => ?_) ?_ (fun text htext => ?_)
    (fun f hf hon => ?_), fun s hs => List.mem_map_of_mem hs⟩
  · exact ⟨fun _ => ⟨op, hop, Bytes.sameFolded_iff.2 rfl⟩, Not.elim (by decide),
      Not.elim (by decide), Not.elim (by decide), hflags (by decide)⟩
  · have htext : Numeral.Int64Text (Numeral.ofInt n) n :=
      ⟨Numeral.signedDenotes_ofInt n, le_trans (by decide) (h.bandwidth n hn).1.le,
        (h.bandwidth n hn).2⟩
    exact ⟨Not.elim (by decide), fun _ => ⟨n, hn, htext⟩, Not.elim (by decide),
      Not.elim (by decide), hflags (by decide)⟩
  · exact ⟨Not.elim (by decide), Not.elim (by decide), fun _ => rfl, Not.elim (by decide),
      hflags (by decide)⟩
  · exact ⟨Not.elim (by decide), Not.elim (by decide), Not.elim (by decide), fun _ => htext,
      hflags (by decide)⟩
  · have hother : ∀ {key : Bytes}, key ∉ flagNames → f.1 ≠ key := fun hkey heq =>
      hkey (heq ▸ name_mem_of_mem_flags hf)
    refine ⟨(hother (by decide)).elim, (hother (by decide)).elim, (hother (by decide)).elim,
      (hother (by decide)).elim, fun f' hf' heq => ?_⟩
    rw [← eq_of_mem_flags hf hf' heq, hon]
    decide

/-- Options can be written as parameters of a target. -/
theorem Writable.settings_plain (h : o.Writable) :
    ∀ s ∈ o.settings, (s.1 ≠ [] ∧ Byte.ampersand ∉ s.1 ∧ Byte.equals ∉ s.1) ∧
      Byte.ampersand ∉ s.2 := by
  refine forall_mem_settings
    (p := fun key value => (key ≠ [] ∧ Byte.ampersand ∉ key ∧ Byte.equals ∉ key) ∧
      Byte.ampersand ∉ value)
    (fun op _ => ⟨by decide, ?_⟩) (fun n _ => ⟨by decide, ?_⟩) ⟨by decide, ?_⟩
    (fun text htext => ⟨by decide, h.filter text htext⟩) (fun f hf _ => ⟨?_, by decide⟩)
  · cases op <;> decide
  · intro hmem
    exact (Numeral.isDigitOf_of_mem_ofInt hmem).elim (by decide) (by decide)
  · intro hmem
    have hfolded : Byte.ampersand ∈ o.progressFormat.lower :=
      List.mem_map.2 ⟨Byte.ampersand, hmem, rfl⟩
    rcases h.format with hsame | hsame <;>
      exact absurd (Bytes.sameFolded_iff.1 hsame ▸ hfolded) (by decide)
  · have hnames : ∀ name ∈ flagNames,
        name ≠ [] ∧ Byte.ampersand ∉ name ∧ Byte.equals ∉ name := by decide
    exact hnames f.1 (name_mem_of_mem_flags hf)

/-- One target that the options are written in. -/
def written (o : LoadOptions) : WrittenTarget where
  segments := [(0, "load")]
  query := some (o.settings.map fun s => (s.1, some s.2))

theorem pairs_written (o : LoadOptions) : o.written.pairs = o.settings := by
  simp [written, WrittenTarget.pairs, Function.comp_def]

theorem Writable.written_valid (h : o.Writable) : o.written.Valid where
  site _ hsite := nomatch hsite
  segments_ne_nil := List.cons_ne_nil _ _
  segments := by
    change ∀ s ∈ [(0, ascii "load")], _
    decide
  keys pair hpair := (h.settings_plain pair (o.pairs_written ▸ hpair)).1
  values pair hpair := (h.settings_plain pair (o.pairs_written ▸ hpair)).2

/-- Options are read from targets exactly as they are written there.

    Options that can be told by parameters, with a positive bandwidth, a progress format and
    a filter without `&`, can be written as a target, and are read back from every target
    that they are written in: each option that is not as by default told at least once, in any
    of its spellings, in any order, and among any other parameters.

    Of any target the options are refused, as a malformed request, just if one of its values is
    none of its option. Otherwise the options are those that the last value of each name says. -/
theorem ofTarget_exact :
    (∀ o : LoadOptions, o.Writable →
      (∃ w : WrittenTarget, w.Valid ∧ o.Written w.pairs) ∧
      ∀ w : WrittenTarget, w.Valid → o.Written w.pairs →
        ∃ t, Target.parse w.encode = .ok t ∧ ofTarget t = .ok o) ∧
    ∀ text t, Target.parse text = .ok t →
      (∃ r : Reading, r.Of text) ∧ ∀ r : Reading, r.Of text →
        ((∃ reason, (ofTarget t).mapError Fault.error = .error (.malformed reason)) ↔
          Refused r.value?) ∧
        (¬ Refused r.value? → ∃ o, ofTarget t = .ok o ∧ Asked r.value? o) ∧
        ∀ o : LoadOptions, o.Writable → o.Written r.named → ofTarget t = .ok o := by
  constructor
  · intro o ho
    refine ⟨⟨o.written, ho.written_valid, o.pairs_written ▸ ho.written_settings⟩,
      fun w hw hpairs => ?_⟩
    obtain ⟨r, t, hnamed, hparse, -, hget⟩ := hw.exists_parse
    rw [← hnamed] at hpairs
    exact ⟨t, hparse, hpairs.ofTarget_eq ho (funext hget)⟩
  · intro text t hparse
    -- The target gives the values that any reading of the text gives.
    refine ⟨Target.exists_reading text, fun r hr => ?_⟩
    have hget : t.get? = r.value? := funext (hr.gives_of_parse hparse).get?
    rw [← hget, ← and_assoc]
    refine ⟨?_, fun o ho hwritten => hwritten.ofTarget_eq ho hget⟩
    rcases ofTarget_cases t with ⟨hrefused, f, hf⟩ | ⟨haccepted, o, ho, hasked⟩
    · exact ⟨iff_of_true ⟨f.message, by rw [hf]; rfl⟩ hrefused, (absurd hrefused ·)⟩
    · refine ⟨iff_of_false (fun ⟨_, h⟩ => ?_) haccepted, fun _ => ⟨o, ho, hasked⟩⟩
      rw [ho] at h
      cases h

/-- Options told among other parameters, one of them twice. -/
def stopping : LoadOptions where
  operation := some .stop
  verify := true
  bandwidth := some 7
  filter := some "a=?"
  progressFormat := "Json"

def stoppingWritten : WrittenTarget where
  segments := [(0, "load")]
  query := some [("verify", some "TRUE"), ("path", some "/d"), ("bandwidth", some "+007"),
    ("progressFormat", some "Json"), ("opType", some "Stop"), ("verbose", none),
    ("fileFilterRegx", some "a=?"), ("opType", some "sTOP")]

/-- A target with a bandwidth that is none. -/
def idleReading : Reading where
  origin := "/load?bandwidth=0"
  path := "/load"
  query := "bandwidth=0"
  pieces := ["", "load"]
  pairs := [("bandwidth", "0")]

theorem ofTarget_exact_stopping :
    (stopping.Writable ∧ stoppingWritten.Valid ∧ stopping.Written stoppingWritten.pairs ∧
      ∃ t, Target.parse stoppingWritten.encode = .ok t ∧ ofTarget t = .ok stopping) ∧
    ∃ t, Target.parse "/load?bandwidth=0" = .ok t ∧ idleReading.Of "/load?bandwidth=0" ∧
      ∃ reason, (ofTarget t).mapError Fault.error = .error (.malformed reason) := by
  have hwritable : stopping.Writable := ⟨by decide, by decide, by decide⟩
  have hvalid : stoppingWritten.Valid := ⟨by decide, by decide, by decide, by decide, by decide⟩
  have hwritten : stopping.Written stoppingWritten.pairs := ⟨by decide, by decide⟩
  have hreading : idleReading.Of "/load?bandwidth=0" := by
    refine ⟨Target.originOf_of_slash rfl, ⟨by decide, .inl rfl⟩, ⟨by decide, by decide, rfl⟩,
      ["bandwidth=0"], ⟨by decide, by decide, rfl⟩, .cons ⟨by decide, .inl rfl⟩ .nil⟩
  have hrefused : Refused idleReading.value? := by
    refine .inr (.inl ⟨"0", rfl, fun ⟨n, hn, hpos⟩ => ?_⟩)
    have hzero : Numeral.exactSigned "0" = some 0 := by decide
    rw [Numeral.exactSigned_eq_some_iff.2 hn, Option.some.injEq] at hzero
    exact absurd hpos (hzero ▸ Int.lt_irrefl 0)
  obtain ⟨t, hparse, -⟩ := hreading.parse_eq_ok rfl (by decide)
  exact ⟨⟨hwritable, hvalid, hwritten,
      (ofTarget_exact.1 stopping hwritable).2 stoppingWritten hvalid hwritten⟩,
    t, hparse, hreading, ((ofTarget_exact.2 _ t hparse).2 idleReading hreading).1.2 hrefused⟩

end LoadOptions

end PageServer
