import PageServer.Http.Request
import PageServer.Proofs.Table
import PageServer.Proofs.Text
import Mathlib.Order.Defs.Unbundled

/-!
# Fields looked up by name

Names are ordered by the first place at which they differ, letter case set aside; a name
comes before those that go on behind its end (`Bytes.Precedes`, which goes byte by byte). The
comparison of names is this order (`Bytes.compareFolded_eq_lt_iff`), a strict weak one, in
which two names stand side by side just if they are the same up to case
(`Bytes.not_lt_iff_sameFolded`).

So header fields that are set one after the other are a map by names up to case
(`Request.fields_by_name`): in whatever spelling a name is asked for, the last value under it
is found, and stands under the spelling that came first.
-/

namespace PageServer

/-! ### The order of names -/

namespace Bytes

variable {a b : Bytes} {x y : Byte}

/-- The byte at a place, its letter case set aside, if the text reaches there. -/
def foldedAt (s : Bytes) (i : Nat) : Option Byte := s[i]?.map Byte.lower

/-- The text comes first: at the first place at which the two differ, letter case set aside,
    it has the lesser byte or is at its end. -/
def Precedes (a b : Bytes) : Prop :=
  ∃ i, (∀ j < i, a.foldedAt j = b.foldedAt j) ∧ ∃ y ∈ b.foldedAt i, ∀ x ∈ a.foldedAt i, x < y

theorem sameFolded_iff_foldedAt : a.sameFolded b ↔ ∀ i, a.foldedAt i = b.foldedAt i := by
  simp only [sameFolded_iff, List.ext_getElem?_iff, lower, foldedAt, List.getElem?_map]

theorem not_precedes_nil : ¬ Precedes a [] := fun ⟨_, _, _, hy, _⟩ => nomatch hy

theorem nil_precedes_cons : Precedes [] (y :: b) :=
  ⟨0, fun _ hj => absurd hj (Nat.not_lt_zero _), y.lower, rfl, fun _ hx => nomatch hx⟩

theorem cons_precedes_cons_iff :
    Precedes (x :: a) (y :: b) ↔ x.lower < y.lower ∨ x.lower = y.lower ∧ Precedes a b := by
  constructor
  · rintro ⟨i, hbefore, z, hz, hless⟩
    cases i with
    | zero =>
      obtain rfl : y.lower = z := Option.some.inj hz
      exact .inl (hless x.lower rfl)
    | succ i =>
      refine .inr ⟨Option.some.inj (hbefore 0 i.succ_pos), i, fun j hj => ?_, z, hz, hless⟩
      exact hbefore (j + 1) (Nat.succ_lt_succ hj)
  · rintro (hlt | ⟨heq, i, hbefore, z, hz, hless⟩)
    · refine ⟨0, fun _ hj => absurd hj (Nat.not_lt_zero _), y.lower, rfl, fun z hz => ?_⟩
      exact Option.some.inj hz ▸ hlt
    · refine ⟨i + 1, fun j hj => ?_, z, hz, hless⟩
      cases j with
      | zero => exact congrArg some heq
      | succ j => exact hbefore j (Nat.lt_of_succ_lt_succ hj)

/-- The comparison of names goes byte by byte, up to the first difference. -/
theorem compareFolded_eq_lt_iff : compareFolded a b = .lt ↔ a.Precedes b := by
  rw [compareFolded, compare_eq_lt_iff]
  induction a generalizing b with
  | nil =>
    cases b with
    | nil => exact iff_of_false (List.lt_irrefl _) not_precedes_nil
    | cons y b => exact iff_of_true (List.nil_lt_cons _ _) nil_precedes_cons
  | cons x a ih =>
    cases b with
    | nil => exact iff_of_false (List.not_lt_nil _) not_precedes_nil
    | cons y b =>
      rw [cons_precedes_cons_iff, ← ih]
      exact List.cons_lt_cons_iff

/-- The names that the order does not tell apart are the same up to case. -/
theorem not_lt_iff_sameFolded :
    ¬ compareFolded a b = .lt ∧ ¬ compareFolded b a = .lt ↔ a.sameFolded b := by
  have hswap : compareFolded b a = (compareFolded a b).swap := Std.OrientedCmp.eq_swap
  rw [← compareFolded_eq_iff, hswap]
  cases compareFolded a b <;> simp

theorem isStrictWeakOrder_compareFolded :
    IsStrictWeakOrder Bytes fun a b => compareFolded a b = .lt where
  irrefl a hlt := by
    have hself : compareFolded a a = .eq := Std.ReflCmp.compare_self
    rw [hself] at hlt
    cases hlt
  trans a b c hab hbc := Std.TransCmp.lt_trans hab hbc
  incomp_trans a b c hab hbc := by
    rw [not_lt_iff_sameFolded, sameFolded_iff] at hab hbc ⊢
    exact hab.trans hbc

end Bytes

/-! ### Fields set one after the other -/

/-- No two names are the same up to case. -/
theorem Http.Fields.pairwise_names (t : Fields) :
    t.entries.Pairwise fun a b => ¬ a.1.sameFolded b.1 := by
  refine t.sorted.imp fun {a b} hlt hsame => ?_
  rw [Bytes.compareFolded_eq_iff.2 hsame] at hlt
  cases hlt

namespace Http.Request

variable {r : Request} {settings : List (Bytes × Bytes)} {name : Bytes}

/-- The request with header fields set one after the other. -/
def withFields (r : Request) (settings : List (Bytes × Bytes)) : Request :=
  settings.foldl (fun r s => r.withField s.1 s.2) r

/-- The fields of a request are those that were set, by their names up to case. -/
structure HasSet (r : Request) (settings : List (Bytes × Bytes)) : Prop where
  /-- A field is there if it was set under its name in some spelling, -/
  hasField_iff : ∀ name : Bytes, r.hasField name ↔ ∃ s ∈ settings, name.sameFolded s.1
  /-- and has the value that was set last. -/
  field_eq : ∀ name : Bytes,
    r.field name = ((settings.reverse.find? (name.sameFolded ·.1)).map (·.2)).getD []
  /-- It is kept once, in the spelling that was set first. -/
  kept_eq : ∀ name : Bytes, r.fields.entries.filter (name.sameFolded ·.1) =
    ((settings.find? (name.sameFolded ·.1)).bind fun first =>
      (settings.reverse.find? (name.sameFolded ·.1)).map fun last => (first.1, last.2)).toList
  /-- The fields are listed in the order of their names, -/
  sorted : r.fields.entries.Pairwise fun a b => Bytes.compareFolded a.1 b.1 = .lt
  /-- so that no two of them have the same name. -/
  apart : r.fields.entries.Pairwise fun a b => ¬ a.1.sameFolded b.1

theorem decide_compareFolded (a b : Bytes) :
    decide (Bytes.compareFolded a b = .eq) = a.sameFolded b := by
  rw [Bool.eq_iff_iff, decide_eq_true_iff, Bytes.compareFolded_eq_iff]

theorem fields_withFields (hr : r.fields = .empty) (settings : List (Bytes × Bytes)) :
    (r.withFields settings).fields = .ofList settings := by
  induction settings using List.reverseRecOn with
  | nil => exact hr
  | append_singleton settings s ih =>
    rw [Table.ofList_snoc, ← ih, withFields, List.foldl_append]
    rfl

theorem get?_withFields (hr : r.fields = .empty) (settings : List (Bytes × Bytes)) (name : Bytes) :
    (r.withFields settings).fields.get? name =
      (settings.reverse.find? (name.sameFolded ·.1)).map (·.2) := by
  rw [fields_withFields hr, Table.get?_ofList]
  simp only [decide_compareFolded]

theorem hasSet_withFields (hr : r.fields = .empty) (settings : List (Bytes × Bytes)) :
    (r.withFields settings).HasSet settings := by
  refine ⟨fun name => ?_, fun name => ?_, fun name => ?_, (r.withFields settings).fields.sorted,
    Fields.pairwise_names _⟩
  · rw [hasField, Table.contains, get?_withFields hr, Option.isSome_map, List.find?_isSome]
    simp only [List.mem_reverse]
  · rw [field, get?_withFields hr]
  · have hfilter := (r.withFields settings).fields.filter_eq_find? name
    rw [fields_withFields hr, Table.find?_ofList] at hfilter
    rw [fields_withFields hr]
    simpa only [decide_compareFolded] using hfilter

/-- Names are compared byte by byte, letter case set aside, in a strict weak order that does
    not tell apart just those names that are the same up to case. By this order the fields of a
    request are a map: whichever were set before, each name has the last value that was set
    under it, once, in its first spelling. -/
theorem fields_by_name (hr : r.fields = .empty) (settings : List (Bytes × Bytes)) :
    (∀ a b, Bytes.compareFolded a b = .lt ↔ a.Precedes b) ∧
      (IsStrictWeakOrder Bytes fun a b => Bytes.compareFolded a b = .lt) ∧
      (∀ a b, ¬ Bytes.compareFolded a b = .lt ∧ ¬ Bytes.compareFolded b a = .lt ↔
        a.sameFolded b) ∧
      (∀ a b : Bytes, a.sameFolded b ↔ ∀ i, a.foldedAt i = b.foldedAt i) ∧
      (r.withFields settings).HasSet settings :=
  ⟨fun _ _ => Bytes.compareFolded_eq_lt_iff, Bytes.isStrictWeakOrder_compareFolded,
    fun _ _ => Bytes.not_lt_iff_sameFolded, fun _ _ => Bytes.sameFolded_iff_foldedAt,
    hasSet_withFields hr settings⟩

/-- A name set twice in two spellings, one that it starts with, and one with a byte above those
    of letters. -/
def respelled : List (Bytes × Bytes) :=
  [("Host-Name", "a"), ("CONTENT-LENGTH", "1"), ("host", "b"), ([200], "c"),
    ("content-Length", "2")]

theorem fields_by_name_respelled :
    ({} : Request).fields = .empty ∧ (({} : Request).withFields respelled).HasSet respelled ∧
      (({} : Request).withFields respelled).field "Content-Length" = "2" ∧
      (({} : Request).withFields respelled).fields.entries =
        ([("CONTENT-LENGTH", "2"), ("host", "b"), ("Host-Name", "a"), ([200], "c")] :
          List (Bytes × Bytes)) :=
  ⟨rfl, (fields_by_name rfl respelled).2.2.2.2, by decide, by decide⟩

end Http.Request

end PageServer
