import PageServer.Table
import Mathlib.Data.List.Induction
import Mathlib.Data.List.Nodup

/-!
# Looking things up in tables

A table is read by the value it has at each key (`Table.get?`). Putting a value at
a key changes what is read at that key and at no other (`Table.get?_insert`), so
that a table of a list reads the last entry of the list with the key
(`Table.get?_ofList`), spelled as in the first one (`Table.mem_keys_ofList`,
`Table.find?_ofList`).

As the keys of a table are in order, a key is there once at most (`Table.filter_eq_find?`),
and the table is known by what is read in it (`Table.ext_get?`).
-/

namespace PageServer.Table

variable {κ α : Type} {cmp : κ → κ → Ordering} {t : Table cmp α} {es : List (κ × α)}
  {j k : κ} {v : α}

theorem ofList_snoc [Std.TransCmp cmp] (es : List (κ × α)) (e : κ × α) :
    (ofList (es ++ [e]) : Table cmp α) = (ofList es).insert e.1 e.2 := by
  simp only [ofList, List.foldl_append, List.foldl_cons, List.foldl_nil]

section Lookup

variable [Std.TransCmp cmp]

theorem lookup_place (j k : κ) (v : α) (es : List (κ × α)) :
    lookup cmp j (place cmp k v es) = if cmp j k = .eq then some v else lookup cmp j es := by
  induction es with
  | nil => rfl
  | cons e es ih =>
    rw [place]
    split
    case h_1 => rfl
    case h_2 heq =>
      -- The key is there in its first spelling.
      rw [lookup, lookup, Std.TransCmp.congr_right heq]
      split <;> rfl
    case h_3 hgt =>
      rw [lookup, lookup, ih]
      split
      · next hje =>
        have hjk : cmp j k ≠ .eq := fun hjk => by
          rw [← Std.TransCmp.congr_left hjk, hje] at hgt
          cases hgt
        rw [if_neg hjk]
      · rfl

/-- What is read after a value was put at a key. -/
theorem get?_insert (t : Table cmp α) (j k : κ) (v : α) :
    (t.insert k v).get? j = if cmp j k = .eq then some v else t.get? j :=
  lookup_place j k v t.entries

/-- What is read after a value was put at a key, unless there was one. -/
theorem get?_insertIfNew [Std.LawfulEqCmp cmp] (t : Table cmp α) (j k : κ) (v : α) :
    (t.insertIfNew k v).get? j = if cmp j k = .eq then some ((t.get? j).getD v) else t.get? j := by
  rw [insertIfNew, contains]
  by_cases hjk : cmp j k = .eq
  · obtain rfl := Std.LawfulEqCmp.eq_of_compare hjk
    rw [if_pos hjk]
    cases hj : t.get? j with
    | none => rw [if_neg (by simp), get?_insert, if_pos hjk, Option.getD_none]
    | some v' => rw [if_pos (by simp), hj, Option.getD_some]
  · rw [if_neg hjk]
    split
    · rfl
    · rw [get?_insert, if_neg hjk]

/-- A table of a list reads the last entry with the key. -/
theorem get?_ofList (es : List (κ × α)) (k : κ) :
    (ofList es : Table cmp α).get? k = (es.reverse.find? (cmp k ·.1 = .eq)).map (·.2) := by
  induction es using List.reverseRecOn with
  | nil => rfl
  | append_singleton es e ih =>
    rw [ofList_snoc, get?_insert, ih, List.reverse_append, List.reverse_singleton,
      List.singleton_append, List.find?_cons]
    by_cases h : cmp k e.1 = .eq <;> simp [h]

/-- What is read after a key was taken out. -/
theorem get?_erase (t : Table cmp α) (j k : κ) :
    (t.erase k).get? j = if cmp k j = .eq then none else t.get? j := by
  change lookup cmp j (t.entries.filter fun e => cmp k e.1 ≠ .eq) = ite _ _ (lookup cmp j t.entries)
  induction t.entries with
  | nil => simp [lookup]
  | cons e es ih =>
    by_cases hke : cmp k e.1 = .eq
    · rw [List.filter_cons_of_neg (by simpa using hke), ih, lookup]
      split
      · rfl
      · next hkj =>
        rw [if_neg fun hje => hkj (Std.TransCmp.eq_trans hke (Std.OrientedCmp.eq_symm hje))]
    · rw [List.filter_cons_of_pos (by simpa using hke), lookup, lookup, ih]
      split
      · next hje => rw [if_neg fun hkj => hke (Std.TransCmp.eq_trans hkj hje)]
      · rfl

end Lookup

theorem get?_map {β : Type} (f : α → β) (t : Table cmp α) (k : κ) :
    (t.map f).get? k = (t.get? k).map f := by
  change lookup cmp k (t.entries.map fun e => (e.1, f e.2)) = (lookup cmp k t.entries).map f
  induction t.entries with
  | nil => rfl
  | cons e es ih =>
    rw [List.map_cons, lookup, lookup, ih]
    split <;> rfl

/-! ### Keys -/

theorem lookup_eq_none_iff : lookup cmp k es = none ↔ ∀ e ∈ es, cmp k e.1 ≠ .eq := by
  induction es with
  | nil => simp [lookup]
  | cons e es ih =>
    rw [lookup, List.forall_mem_cons]
    by_cases h : cmp k e.1 = .eq
    · simp [h]
    · rw [if_neg h, ih]
      exact (and_iff_right h).symm

/-- What is read at a key is the value of the first entry with the key. -/
theorem get?_eq_find? (t : Table cmp α) (k : κ) :
    t.get? k = (t.entries.find? (cmp k ·.1 = .eq)).map (·.2) := by
  change lookup cmp k t.entries = (t.entries.find? (cmp k ·.1 = .eq)).map (·.2)
  induction t.entries with
  | nil => rfl
  | cons e es ih =>
    rw [lookup, List.find?_cons, ih]
    by_cases h : cmp k e.1 = .eq <;> simp [h]

/-- What is read at a key is the value of an entry. -/
theorem exists_mem_of_get? (h : t.get? k = some v) :
    ∃ e ∈ t.entries, cmp k e.1 = .eq ∧ e.2 = v := by
  rw [get?_eq_find?, Option.map_eq_some_iff] at h
  obtain ⟨e, hfind, he⟩ := h
  exact ⟨e, List.mem_of_find?_eq_some hfind, by simpa using List.find?_some hfind, he⟩

/-- The table has the keys at which there is a value. -/
theorem mem_keys_iff [Std.LawfulEqCmp cmp] : k ∈ t.keys ↔ t.get? k ≠ none := by
  rw [ne_eq, get?, lookup_eq_none_iff]
  simp only [Std.LawfulEqCmp.compare_eq_iff_eq, ne_eq, not_forall, not_not, keys, List.mem_map]
  exact ⟨fun ⟨e, he, hk⟩ => ⟨e, he, hk.symm⟩, fun ⟨e, he, hk⟩ => ⟨e, he, hk.symm⟩⟩

/-- A key that does not count is of no matter where it is put. -/
theorem filterMap_keys_insert [Std.TransCmp cmp] {β : Type} {f : κ → Option β} (hk : f k = none)
    (t : Table cmp α) (v : α) : (t.insert k v).keys.filterMap f = t.keys.filterMap f := by
  change ((place cmp k v t.entries).map (·.1)).filterMap f = (t.entries.map (·.1)).filterMap f
  induction t.entries with
  | nil => simp [place, hk]
  | cons e es ih =>
    rw [place]
    split
    case h_1 => rw [List.map_cons, List.filterMap_cons_none hk]
    case h_2 => rfl
    case h_3 => rw [List.map_cons, List.map_cons, List.filterMap_cons, List.filterMap_cons, ih]

section Order

variable [Std.TransCmp cmp]

theorem insert_ne_nil (t : Table cmp α) (k : κ) (v : α) : (t.insert k v).entries ≠ [] := by
  obtain ⟨_ | ⟨e, es⟩, -⟩ := t
  · exact List.cons_ne_nil _ _
  · change place cmp k v (e :: es) ≠ []
    rw [place]
    split <;> exact List.cons_ne_nil _ _

/-- An entry after an insertion is an old one, or has the new value. -/
theorem mem_insert {e : κ × α} (h : e ∈ (t.insert k v).entries) :
    e ∈ t.entries ∨ e.2 = v ∧ (e.1 = k ∨ e.1 ∈ t.keys) := mem_place h

/-- What holds of all keys and of all values holds after an insertion, if it holds of the
    new ones. -/
theorem forall_mem_insert {p : κ → Prop} {q : α → Prop} (h : ∀ e ∈ t.entries, p e.1 ∧ q e.2)
    (hk : p k) (hv : q v) : ∀ e ∈ (t.insert k v).entries, p e.1 ∧ q e.2 := by
  intro e he
  rcases mem_insert he with he | ⟨hvalue, hkey | hkey⟩
  · exact h e he
  · exact ⟨hkey ▸ hk, hvalue ▸ hv⟩
  · obtain ⟨e', he', heq⟩ := List.mem_map.1 hkey
    exact ⟨heq ▸ (h e' he').1, hvalue ▸ hv⟩

theorem mem_keys_place (h : es.Pairwise fun a b => cmp a.1 b.1 = .lt) :
    j ∈ (place cmp k v es).map (·.1) ↔ j ∈ es.map (·.1) ∨ j = k ∧ lookup cmp k es = none := by
  induction es with
  | nil => simp [place, lookup]
  | cons e es ih =>
    obtain ⟨hhead, htail⟩ := List.pairwise_cons.1 h
    rw [place]
    split
    case h_1 hlt =>
      -- The key is less than all keys of the table, so it is not one of them.
      have hnone : lookup cmp k (e :: es) = none := by
        refine lookup_eq_none_iff.2 (List.forall_mem_cons.2 ⟨by simp [hlt], fun e' he' => ?_⟩)
        simp [Std.TransCmp.lt_trans hlt (hhead e' he')]
      simp only [List.map_cons, List.mem_cons, hnone, and_true]
      exact or_comm
    case h_2 heq =>
      simp [lookup, heq]
    case h_3 hgt =>
      simp only [List.map_cons, List.mem_cons, ih htail, lookup, hgt, reduceCtorEq, if_false,
        or_assoc]

/-- An insertion adds the key, unless the table has it in some spelling. -/
theorem mem_keys_insert (t : Table cmp α) :
    j ∈ (t.insert k v).keys ↔ j ∈ t.keys ∨ j = k ∧ t.get? k = none := mem_keys_place t.sorted

/-- The keys of a table of a list are spelled as in the first entry with the
    key. -/
theorem mem_keys_ofList :
    k ∈ (ofList es : Table cmp α).keys ↔ (es.find? (cmp k ·.1 = .eq)).map (·.1) = some k := by
  induction es using List.reverseRecOn with
  | nil => simp [ofList, empty, keys]
  | append_singleton es e ih =>
    rw [ofList_snoc, mem_keys_insert, ih, get?_ofList, List.find?_append]
    cases hfind : es.find? (cmp k ·.1 = .eq) with
    | some f =>
      -- The key is there already.
      have hpresent : k = e.1 → (es.reverse.find? (cmp e.1 ·.1 = .eq)).map (·.2) ≠ none := by
        rintro rfl hnone
        have hf := List.find?_some hfind
        have hmem := List.mem_reverse.2 (List.mem_of_find?_eq_some hfind)
        exact List.find?_eq_none.1 (Option.map_eq_none_iff.1 hnone) f hmem hf
      simp only [Option.map_some, Option.some_or]
      exact or_iff_left fun h => hpresent h.1 h.2
    | none =>
      simp only [Option.map_none, Option.none_or, List.find?_singleton, reduceCtorEq, false_or]
      constructor
      · rintro ⟨rfl, -⟩
        simp [Std.ReflCmp.compare_self]
      · intro h
        obtain ⟨f, hf, rfl⟩ := Option.map_eq_some_iff.1 h
        split at hf <;> cases hf
        refine ⟨rfl, ?_⟩
        rw [Option.map_eq_none_iff, List.find?_eq_none]
        exact fun f hf => List.find?_eq_none.1 hfind f (List.mem_reverse.1 hf)

/-- A table has one entry for a key at most, in whatever spelling. -/
theorem filter_eq_find? (t : Table cmp α) (k : κ) :
    t.entries.filter (cmp k ·.1 = .eq) = (t.entries.find? (cmp k ·.1 = .eq)).toList := by
  obtain ⟨es, h⟩ := t
  change es.filter (cmp k ·.1 = .eq) = (es.find? (cmp k ·.1 = .eq)).toList
  induction es with
  | nil => rfl
  | cons e es ih =>
    obtain ⟨hhead, htail⟩ := List.pairwise_cons.1 h
    by_cases hk : cmp k e.1 = .eq
    · have hrest : es.filter (cmp k ·.1 = .eq) = [] := by
        refine List.filter_eq_nil_iff.2 fun e' he' heq => ?_
        have hlt := hhead e' he'
        rw [← Std.TransCmp.congr_left hk, of_decide_eq_true heq] at hlt
        cases hlt
      rw [List.filter_cons_of_pos (by simpa using hk), List.find?_cons_of_pos (by simpa using hk),
        hrest]
      rfl
    · rw [List.filter_cons_of_neg (by simpa using hk), List.find?_cons_of_neg (by simpa using hk)]
      exact ih htail

theorem find?_key_ofList (es : List (κ × α)) (k : κ) :
    ((ofList es : Table cmp α).entries.find? (cmp k ·.1 = .eq)).map (·.1) =
      (es.find? (cmp k ·.1 = .eq)).map (·.1) := by
  cases hfind : (ofList es : Table cmp α).entries.find? (cmp k ·.1 = .eq) with
  | none =>
    have hnone : (ofList es : Table cmp α).get? k = none := by
      rw [get?_eq_find?, hfind]
      rfl
    rw [get?_ofList, Option.map_eq_none_iff] at hnone
    have hall : ∀ e ∈ es, ¬ decide (cmp k e.1 = .eq) = true := fun e he =>
      List.find?_eq_none.1 hnone e (List.mem_reverse.2 he)
    rw [List.find?_eq_none.2 hall]
  | some e =>
    have hk : cmp k e.1 = .eq := by simpa using List.find?_some hfind
    have hkey : e.1 ∈ (ofList es : Table cmp α).keys :=
      List.mem_map_of_mem (List.mem_of_find?_eq_some hfind)
    rw [mem_keys_ofList] at hkey
    simp only [Std.TransCmp.congr_left hk, Option.map_some]
    exact hkey.symm

/-- The entry for a key in a table of a list is spelled as in the first entry of the list
    with the key, and has the value of the last one. -/
theorem find?_ofList (es : List (κ × α)) (k : κ) :
    (ofList es : Table cmp α).entries.find? (cmp k ·.1 = .eq) =
      (es.find? (cmp k ·.1 = .eq)).bind fun first =>
        (es.reverse.find? (cmp k ·.1 = .eq)).map fun last => (first.1, last.2) := by
  have hkey : ((ofList es : Table cmp α).entries.find? (cmp k ·.1 = .eq)).map (·.1) = _ :=
    find?_key_ofList es k
  have hvalue : (ofList es : Table cmp α).get? k = _ := get?_ofList es k
  rw [get?_eq_find?] at hvalue
  cases hfind : (ofList es : Table cmp α).entries.find? (cmp k ·.1 = .eq) with
  | none =>
    rw [hfind] at hkey
    rw [Option.map_eq_none_iff.1 hkey.symm]
    rfl
  | some e =>
    rw [hfind] at hkey hvalue
    obtain ⟨first, hfirst, heq⟩ := Option.map_eq_some_iff.1 hkey.symm
    obtain ⟨last, hlast, heq'⟩ := Option.map_eq_some_iff.1 hvalue.symm
    rw [hfirst, hlast, Option.bind_some, Option.map_some, heq, heq']

/-- With a comparison that tells all keys apart, a table has one entry for each key that it
    has. -/
theorem filter_key [Std.LawfulEqCmp cmp] [DecidableEq κ] (t : Table cmp α) (k : κ) :
    t.entries.filter (·.1 = k) = ((t.get? k).map fun v => (k, v)).toList := by
  have hsame : t.entries.filter (·.1 = k) = t.entries.filter (cmp k ·.1 = .eq) := by
    simp only [Std.LawfulEqCmp.compare_eq_iff_eq, eq_comm (a := k)]
  rw [hsame, filter_eq_find?, get?_eq_find?]
  cases hfind : t.entries.find? (cmp k ·.1 = .eq) with
  | none => rfl
  | some e =>
    have hk : k = e.1 := by simpa using List.find?_some hfind
    rw [hk]
    rfl

/-- The entries of a table are the keys with what is read there. -/
theorem mem_entries_iff [Std.LawfulEqCmp cmp] [DecidableEq κ] (t : Table cmp α) :
    (k, v) ∈ t.entries ↔ t.get? k = some v := by
  have hmem : (k, v) ∈ t.entries ↔ (k, v) ∈ t.entries.filter (·.1 = k) := by simp
  rw [hmem, filter_key, Option.mem_toList]
  simp

/-- No key is twice in a table. -/
theorem nodup_keys (t : Table cmp α) : t.keys.Nodup := by
  refine List.Pairwise.map _ (fun a b hlt heq => ?_) t.sorted
  have hself : cmp b.1 b.1 = .eq := Std.ReflCmp.compare_self
  rw [heq, hself] at hlt
  cases hlt

/-- A table is known by what is read in it. -/
theorem ext_get? [Std.LawfulEqCmp cmp] [DecidableEq κ] {t t' : Table cmp α}
    (hget : ∀ k, t.get? k = t'.get? k) : t = t' := by
  have hnodup : ∀ t : Table cmp α, t.entries.Nodup := fun t => List.Nodup.of_map _ t.nodup_keys
  have hperm : t.entries.Perm t'.entries := by
    refine (List.perm_ext_iff_of_nodup (hnodup t) (hnodup t')).2 fun e => ?_
    rw [mem_entries_iff, mem_entries_iff, hget]
  have hentries : t.entries = t'.entries := by
    refine hperm.eq_of_pairwise (fun a b _ _ hab hba => ?_) t.sorted t'.sorted
    -- No key is less than another one that is less than it.
    have hswap : cmp b.1 a.1 = (cmp a.1 b.1).swap := Std.OrientedCmp.eq_swap
    rw [hswap, hab] at hba
    cases hba
  obtain ⟨es, hes⟩ := t
  obtain ⟨es', hes'⟩ := t'
  obtain rfl : es = es' := hentries
  rfl

end Order

end PageServer.Table
