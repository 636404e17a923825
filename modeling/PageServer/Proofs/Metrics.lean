import PageServer.Metrics
import PageServer.Proofs.Json.Written
import PageServer.Proofs.Table

/-!
# The metrics document

Whatever is done to a registry, each counter has the sum of what was added to it since it was
last at zero, within numbers of sixty-four bits (`Metrics.get?_counters_run`), and each gauge is
the first one registered under its name that was not removed (`Metrics.get?_gauges_run`).

The document of a registry is JSON just if every gauge reads a finite number, and then it tells
of each counter and of each gauge once (`Metrics.document_json_iff`): an infinite one and one
that is no number are written as words that JSON does not know.
-/

namespace PageServer

open Json

/-! ### Numbers in the document -/

namespace Binary64

/-- The double stands for a number. -/
def IsFinite (x : Binary64) : Prop := ∃ negative m e, x.decode = .finite negative m e

/-- The number in units of a decimal place, to the nearest one, if it is finite. -/
def inUnits (places : Nat) (x : Binary64) : Option Int :=
  match x.decode with
  | .finite negative m e =>
    some (signed negative (roundRatio ((ratioOf m e).1 * 10 ^ places) (ratioOf m e).2))
  | _ => none

theorem isSome_inUnits {x : Binary64} (places : Nat) : (x.inUnits places).isSome ↔ x.IsFinite := by
  rw [inUnits, IsFinite]
  split
  · next heq => simp [heq]
  · next hne =>
    refine iff_of_false (by simp) ?_
    rintro ⟨negative, m, e, heq⟩
    exact hne negative m e heq

/-- A double with decimals gives its number, if it is finite, and nothing else. -/
theorem gives_fixed {places : Nat} (hplaces : 0 < places) (x : Binary64) :
    Gives (x.fixed places) ((x.inUnits places).map (.number · (-places))) := by
  rw [fixed, inUnits]
  cases heq : x.decode with
  | nan negative => cases negative <;> exact gives_none (by decide) fun _ _ => rfl
  | infinite negative => cases negative <;> exact gives_none (by decide) fun _ _ => rfl
  | finite negative m e =>
    exact gives_some_iff.2 (.number (numberText_pointed negative hplaces _))

end Binary64

namespace Metrics

variable {m : Metrics} {name name' : Bytes} {n : Int}

/-! ### The document -/

variable {β : Type}

/-- Members on lines of their own are an object. -/
theorem members_eq_layout {lines : List (Bytes × Bytes)} (h : lines ≠ []) :
    members lines = layout "\n    " " " "\n  " lines := by
  let line := fun l : Bytes × Bytes => ascii "    " ++ Json.string l.1 ++ ": " ++ l.2
  have hline : lines.map (fun l => ascii "\n    " ++ Json.string l.1 ++ ":" ++ " " ++ l.2) =
      (lines.map line).map (ascii "\n" ++ ·) := by
    rw [List.map_map]
    refine List.map_congr_left fun l _ => ?_
    simp [line, ascii]
  have hmembers : members lines =
      ascii "\x7b\n" ++ Bytes.join (ascii "," ++ "\n") (lines.map line) ++ "\n  \x7d" := by
    cases lines with
    | nil => exact absurd rfl h
    | cons l lines => rfl
  rw [hmembers, layout, hline, ← Bytes.append_join "," "\n" (by simpa using h)]
  simp [ascii]

theorem gives_members {name text : β → Bytes} {f : β → Option Value} {l : List β}
    (h : ∀ b ∈ l, Gives (text b) (f b)) :
    Gives (members (l.map fun b => (name b, text b)))
      ((l.mapM fun b => (f b).map (name b, ·)).map .object) := by
  cases l with
  | nil => exact gives_some_iff.2 (.emptyObject blank_nil)
  | cons b l =>
    rw [members_eq_layout (by simp)]
    exact gives_layout (by decide) (by decide) (by decide) h

theorem document_eq_layout (m : Metrics) (uptime : Nat) :
    m.document uptime = layout "\n  " " " "\n" [("uptime_sec", Numeral.ofNat uptime),
      ("counters", members (m.counters.entries.map fun e => (e.1, Numeral.ofInt e.2))),
      ("gauges", members (m.gauges.entries.map fun e => (e.1, (m.read e.2).fixed 6)))] := by
  have huptime : ascii "\x7b\n  \"uptime_sec\": " =
      openBrace :: (ascii "\n  " ++ Json.string "uptime_sec" ++ ":" ++ " ") := by decide
  have hcounters : ascii ",\n  \"counters\": " =
      "," ++ (ascii "\n  " ++ Json.string "counters" ++ ":" ++ " ") := by decide
  have hgauges : ascii ",\n  \"gauges\": " =
      "," ++ (ascii "\n  " ++ Json.string "gauges" ++ ":" ++ " ") := by decide
  have hend : ascii "\n\x7d" = "\n" ++ [closeBrace] := by decide
  rw [document, huptime, hcounters, hgauges, hend, layout]
  simp only [List.map_cons, List.map_nil, Bytes.join_cons_cons, Bytes.join_singleton,
    List.append_assoc, List.cons_append]

/-- The document tells of all gauges if all of them are finite, and is no JSON if one is not. -/
theorem read_document (m : Metrics) (uptime : Nat) :
    Json.read (m.document uptime) =
      (m.gauges.entries.mapM fun e =>
        ((m.read e.2).inUnits 6).map fun n => (e.1, Value.number n (-6))).map fun gauges =>
          .object [("uptime_sec", .number uptime 0),
            ("counters", .object (m.counters.entries.map fun e => (e.1, .number e.2 0))),
            ("gauges", .object gauges)] := by
  have hcounters : Gives (members (m.counters.entries.map fun e => (e.1, Numeral.ofInt e.2)))
      (some (.object (m.counters.entries.map fun e => (e.1, .number e.2 0)))) := by
    have h : ∀ e ∈ m.counters.entries, Gives (Numeral.ofInt e.2) (some (.number e.2 0)) :=
      fun e _ => gives_ofInt e.2
    have hmembers : Gives (members (m.counters.entries.map fun e => (e.1, Numeral.ofInt e.2))) _ :=
      gives_members h
    simp only [Option.map_some, mapM_some] at hmembers
    exact hmembers
  have hgauges : Gives (members (m.gauges.entries.map fun e => (e.1, (m.read e.2).fixed 6)))
      ((m.gauges.entries.mapM fun e =>
        ((m.read e.2).inUnits 6).map fun n => (e.1, Value.number n (-6))).map .object) := by
    have h : ∀ e ∈ m.gauges.entries, Gives ((m.read e.2).fixed 6)
        (((m.read e.2).inUnits 6).map (.number · (-6))) :=
      fun e _ => Binary64.gives_fixed (by decide) (m.read e.2)
    have hmembers : Gives (members (m.gauges.entries.map fun e => (e.1, (m.read e.2).fixed 6))) _ :=
      gives_members h
    simp only [Option.map_map] at hmembers
    exact hmembers
  -- From here on it does not matter what the gauges come to, a list or nothing.
  generalize (m.gauges.entries.mapM fun e =>
    ((m.read e.2).inUnits 6).map fun n => (e.1, Value.number n (-6))) = gauges at hgauges ⊢
  let parts : List (Bytes × Bytes × Option Value) :=
    [("uptime_sec", Numeral.ofNat uptime, some (.number uptime 0)),
      ("counters", members (m.counters.entries.map fun e => (e.1, Numeral.ofInt e.2)),
        some (.object (m.counters.entries.map fun e => (e.1, .number e.2 0)))),
      ("gauges", members (m.gauges.entries.map fun e => (e.1, (m.read e.2).fixed 6)),
        gauges.map .object)]
  have hparts : ∀ p ∈ parts, Gives p.2.1 p.2.2 := by
    simp only [parts, List.forall_mem_cons]
    exact ⟨gives_ofNat uptime, hcounters, hgauges, fun _ h => nomatch h⟩
  have hlayout : Gives (layout "\n  " " " "\n" (parts.map fun p => (p.1, p.2.1))) _ :=
    gives_layout (by decide) (by decide) (by decide) hparts
  rw [document_eq_layout]
  refine hlayout.read_eq.trans ?_
  cases gauges <;> rfl

/-! ### What is done to a registry -/

/-- What is done to a registry. -/
inductive Event
  | touch (name : Bytes)
  | add (name : Bytes) (n : Int)
  | reset (name : Bytes)
  | resetAll
  | register (name : Bytes) (gauge : Gauge)
  | remove (name : Bytes)
  /-- A server has so many connections open. -/
  | connections (server count : Nat)

/-- The registry after an event. -/
def after (m : Metrics) : Event → Metrics
  | .touch name => m.touch name
  | .add name n => m.add name n
  | .reset name => m.reset name
  | .resetAll => m.resetAll
  | .register name gauge => (m.registerGauge name gauge).2
  | .remove name => m.removeGauge name
  | .connections server count => m.setConnections server count

/-- The registry after events, from the empty one on. -/
def run (events : List Event) : Metrics := events.foldl after {}

theorem run_snoc (events : List Event) (e : Event) :
    run (events ++ [e]) = (run events).after e := by
  simp only [run, List.foldl_append, List.foldl_cons, List.foldl_nil]

/-- What was added to a counter since it was last at zero, if there is the counter. -/
def totalAfter (name : Bytes) (total : Option Int) : Event → Option Int
  | .touch k => if name = k then some (total.getD 0) else total
  | .add k n => if name = k then some (total.getD 0 + n) else total
  | .reset k => if name = k then some 0 else total
  | .resetAll => total.map fun _ => 0
  | _ => total

def totalOf (events : List Event) (name : Bytes) : Option Int :=
  events.foldl (totalAfter name) none

/-- The gauge under a name: the first one that was registered and not removed. -/
def gaugeAfter (name : Bytes) (gauge : Option Gauge) : Event → Option Gauge
  | .register k g => if name = k then gauge.or (some g) else gauge
  | .remove k => if name = k then none else gauge
  | _ => gauge

def gaugeOf (events : List Event) (name : Bytes) : Option Gauge :=
  events.foldl (gaugeAfter name) none

theorem gauges_registerGauge (m : Metrics) (name : Bytes) (gauge : Gauge) :
    (m.registerGauge name gauge).2.gauges = m.gauges.insertIfNew name gauge := by
  rw [registerGauge, Table.insertIfNew]
  split <;> rfl

theorem get?_counters_after (m : Metrics) (e : Event) {total : Option Int}
    (h : m.counters.get? name = total.map wrapInt64) :
    (m.after e).counters.get? name = (totalAfter name total e).map wrapInt64 := by
  -- A counter that there is not counts as zero when something is added to it.
  have hcount : m.count name = wrapInt64 (total.getD 0) := by
    rw [count, h]
    cases total <;> rfl
  cases e with
  | touch k =>
    rw [after, touch, Table.get?_insertIfNew, totalAfter]
    simp only [Std.LawfulEqCmp.compare_eq_iff_eq]
    split
    · exact congrArg some hcount
    · exact h
  | add k n =>
    rw [after, add, Table.get?_insert, totalAfter]
    simp only [Std.LawfulEqCmp.compare_eq_iff_eq]
    split
    · next hk =>
      subst hk
      rw [hcount, wrapInt64_add, Option.map_some]
    · exact h
  | reset k =>
    rw [after, reset, Table.get?_insert, totalAfter]
    simp only [Std.LawfulEqCmp.compare_eq_iff_eq]
    split
    · rfl
    · exact h
  | resetAll =>
    rw [after, resetAll, Table.get?_map, h, totalAfter]
    cases total <;> rfl
  | register k gauge =>
    rw [after, registerGauge]
    split <;> exact h
  | remove _ | connections _ _ => exact h

theorem get?_counters_run (events : List Event) (name : Bytes) :
    (run events).counters.get? name = (totalOf events name).map wrapInt64 := by
  induction events using List.reverseRecOn with
  | nil => rfl
  | append_singleton events e ih =>
    rw [run_snoc, get?_counters_after _ e ih, totalOf, totalOf, List.foldl_append,
      List.foldl_cons, List.foldl_nil]

theorem get?_gauges_after (m : Metrics) (e : Event) {gauge : Option Gauge}
    (h : m.gauges.get? name = gauge) : (m.after e).gauges.get? name = gaugeAfter name gauge e := by
  cases e with
  | register k g =>
    rw [after, gauges_registerGauge, Table.get?_insertIfNew, gaugeAfter, h]
    simp only [Std.LawfulEqCmp.compare_eq_iff_eq]
    cases gauge <;> rfl
  | remove k =>
    rw [after, removeGauge, Table.get?_erase, gaugeAfter, h]
    simp only [Std.LawfulEqCmp.compare_eq_iff_eq, eq_comm (a := k)]
  | touch _ | add _ _ | reset _ | resetAll | connections _ _ => exact h

theorem get?_gauges_run (events : List Event) (name : Bytes) :
    (run events).gauges.get? name = gaugeOf events name := by
  induction events using List.reverseRecOn with
  | nil => rfl
  | append_singleton events e ih =>
    rw [run_snoc, get?_gauges_after _ e ih, gaugeOf, gaugeOf, List.foldl_append, List.foldl_cons,
      List.foldl_nil]

/-! ### The document of any registry -/

theorem mem_counters_run_iff {events : List Event} {n : Int} :
    (name, n) ∈ (run events).counters.entries ↔
      ∃ total, totalOf events name = some total ∧ wrapInt64 total = n := by
  rw [Table.mem_entries_iff, get?_counters_run, Option.map_eq_some_iff]

theorem mem_gauges_run_iff {events : List Event} {gauge : Gauge} :
    (name, gauge) ∈ (run events).gauges.entries ↔ gaugeOf events name = some gauge := by
  rw [Table.mem_entries_iff, get?_gauges_run]

/-- The gauges that are read of a document are all those of the registry, and they are read if
    they are finite. -/
theorem exists_gauges_iff (events : List Event) :
    (∃ gauges, ((run events).gauges.entries.mapM fun e =>
        (((run events).read e.2).inUnits 6).map fun n => (e.1, Value.number n (-6))) =
          some gauges) ↔
      ∀ name gauge, gaugeOf events name = some gauge → ((run events).read gauge).IsFinite := by
  rw [exists_mapM_iff]
  simp only [Option.isSome_map, Binary64.isSome_inUnits, Prod.forall, mem_gauges_run_iff]

/-- The document of a registry is JSON just if all its gauges are finite. Then it has each
    counter once, with its count, and each gauge once, with one number: the one that it reads, to
    the nearest millionth. -/
theorem document_json_iff (events : List Event) (uptime : Nat) :
    ((∃ v, Document v ((run events).document uptime)) ↔
        ∀ name gauge, gaugeOf events name = some gauge → ((run events).read gauge).IsFinite) ∧
      ∀ v, Document v ((run events).document uptime) → ∃ counters gauges,
        v = .object [("uptime_sec", .number uptime 0), ("counters", .object counters),
            ("gauges", .object gauges)] ∧
          (counters.map (·.1)).Nodup ∧
          (∀ name w, (name, w) ∈ counters ↔
            ∃ total, totalOf events name = some total ∧ w = .number (wrapInt64 total) 0) ∧
          (gauges.map (·.1)).Nodup ∧
          ∀ name w, (name, w) ∈ gauges ↔ ∃ gauge n, gaugeOf events name = some gauge ∧
            ((run events).read gauge).inUnits 6 = some n ∧ w = .number n (-6) := by
  simp only [← read_eq_some_iff, read_document, Option.map_eq_some_iff]
  refine ⟨?_, ?_⟩
  · rw [← exists_gauges_iff]
    constructor
    · rintro ⟨v, gauges, hread, -⟩
      exact ⟨gauges, hread⟩
    · rintro ⟨gauges, hread⟩
      exact ⟨_, gauges, hread, rfl⟩
  · rintro v ⟨gauges, hread, rfl⟩
    refine ⟨_, gauges, rfl, ?_, ?_, ?_, ?_⟩
    · rw [List.map_map]
      exact (run events).counters.nodup_keys
    · intro name w
      simp only [List.mem_map, Prod.mk.injEq, Prod.exists]
      constructor
      · rintro ⟨k, n, hmem, rfl, rfl⟩
        obtain ⟨total, htotal, rfl⟩ := mem_counters_run_iff.1 hmem
        exact ⟨total, htotal, rfl⟩
      · rintro ⟨total, htotal, rfl⟩
        exact ⟨name, _, mem_counters_run_iff.2 ⟨total, htotal, rfl⟩, rfl, rfl⟩
    · -- A gauge that is read keeps its name, so the names are those of the registry.
      have hnames : gauges.map (·.1) = (run events).gauges.entries.map (·.1) := by
        refine map_of_mapM (fun e p hp => ?_) hread
        obtain ⟨n, -, rfl⟩ := Option.map_eq_some_iff.1 hp
        rfl
      rw [hnames]
      exact (run events).gauges.nodup_keys
    · intro name w
      rw [mem_of_mapM hread]
      simp only [Prod.exists, Option.map_eq_some_iff, Prod.mk.injEq]
      constructor
      · rintro ⟨k, gauge, hmem, n, hn, rfl, rfl⟩
        exact ⟨gauge, n, mem_gauges_run_iff.1 hmem, hn, rfl⟩
      · rintro ⟨gauge, n, hmem, hn, rfl⟩
        exact ⟨name, gauge, mem_gauges_run_iff.2 hmem, n, hn, rfl, rfl⟩

/-- A registry with a gauge at one half and a counter. -/
theorem document_json_iff_half :
    ∃ v, Document v ((run [.register "g" (.constant ((Binary64.ofInt 1).div (.ofInt 2))),
      .add "c" 3]).document 0) := by
  refine (document_json_iff _ 0).1.2 fun name gauge hgauge => ?_
  have hhalf : ((Binary64.ofInt 1).div (.ofInt 2)).decode = .finite false (2 ^ 52) (-53) := by
    decide +kernel
  simp only [gaugeOf, List.foldl_cons, List.foldl_nil, gaugeAfter, Option.none_or] at hgauge
  split at hgauge
  · cases hgauge
    exact ⟨_, _, _, hhalf⟩
  · cases hgauge

/-- A gauge that reads an infinite number. -/
theorem document_not_json :
    ¬ ∀ (events : List Event) (uptime : Nat), ∃ v, Document v ((run events).document uptime) := by
  intro hall
  obtain ⟨v, hv⟩ := hall [.register "g" (.constant (.infinity false))] 0
  have hnone :
      Json.read ((run [.register "g" (.constant (.infinity false))]).document 0) = none := by
    rw [read_document]
    decide
  rw [← read_eq_some_iff, hnone] at hv
  cases hv

end Metrics

end PageServer
