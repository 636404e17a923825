/-!
# Tables

A table holds at most one value for each key and lists its keys in the order
of a comparison, which also decides when two keys are the same. A key that is
put again gets the new value and keeps the spelling it was first put under.

That the keys are in order is part of a table, so every operation keeps it; for
an insertion this is `Table.pairwise_place`.
-/

namespace PageServer

/-- A finite map whose keys are compared by `cmp` and listed in that order. -/
structure Table {κ : Type} (cmp : κ → κ → Ordering) (α : Type) where
  /-- The keys with their values, in the order of the keys. -/
  entries : List (κ × α)
  /-- Each key is less than all behind it. -/
  sorted : entries.Pairwise fun a b => cmp a.1 b.1 = .lt

namespace Table

variable {κ α : Type} {cmp : κ → κ → Ordering}

/-- The table without keys. -/
def empty : Table cmp α := ⟨[], .nil⟩

instance : Inhabited (Table cmp α) := ⟨empty⟩

/-- The value at a key in a list of entries. -/
def lookup (cmp : κ → κ → Ordering) (k : κ) : List (κ × α) → Option α
  | [] => none
  | (k', v) :: rest => if cmp k k' = .eq then some v else lookup cmp k rest

/-- The entries with a value put at a key, before the first greater key. -/
def place (cmp : κ → κ → Ordering) (k : κ) (v : α) : List (κ × α) → List (κ × α)
  | [] => [(k, v)]
  | (k', v') :: rest =>
    match cmp k k' with
    | .lt => (k, v) :: (k', v') :: rest
    | .eq => (k', v) :: rest
    | .gt => (k', v') :: place cmp k v rest

theorem mem_place {k : κ} {v : α} {e : κ × α} {es : List (κ × α)} (h : e ∈ place cmp k v es) :
    e ∈ es ∨ e.2 = v ∧ (e.1 = k ∨ e.1 ∈ es.map (·.1)) := by
  induction es with
  | nil =>
    obtain rfl := List.mem_singleton.1 h
    exact .inr ⟨rfl, .inl rfl⟩
  | cons e' es ih =>
    rw [place] at h
    split at h
    case h_1 =>
      rcases List.mem_cons.1 h with rfl | h
      · exact .inr ⟨rfl, .inl rfl⟩
      · exact .inl h
    case h_2 =>
      rcases List.mem_cons.1 h with rfl | h
      · exact .inr ⟨rfl, .inr List.mem_cons_self⟩
      · exact .inl (List.mem_cons_of_mem _ h)
    case h_3 =>
      rcases List.mem_cons.1 h with rfl | h
      · exact .inl List.mem_cons_self
      · rcases ih h with h | ⟨hv, hk | hk⟩
        · exact .inl (List.mem_cons_of_mem _ h)
        · exact .inr ⟨hv, .inl hk⟩
        · exact .inr ⟨hv, .inr (List.mem_cons_of_mem _ hk)⟩

/-- A value that is put at a key leaves the keys in order. -/
theorem pairwise_place [Std.TransCmp cmp] {es : List (κ × α)}
    (h : es.Pairwise fun a b => cmp a.1 b.1 = .lt) (k : κ) (v : α) :
    (place cmp k v es).Pairwise fun a b => cmp a.1 b.1 = .lt := by
  induction es with
  | nil => exact List.pairwise_singleton _ _
  | cons e es ih =>
    obtain ⟨hhead, htail⟩ := List.pairwise_cons.1 h
    rw [place]
    split
    case h_1 hlt =>
      refine List.pairwise_cons.2 ⟨List.forall_mem_cons.2 ⟨hlt, fun e' he' => ?_⟩, h⟩
      exact Std.TransCmp.lt_trans hlt (hhead e' he')
    case h_2 => exact List.pairwise_cons.2 ⟨hhead, htail⟩
    case h_3 hgt =>
      refine List.pairwise_cons.2 ⟨fun e' he' => ?_, ih htail⟩
      rcases mem_place he' with he' | ⟨-, hk | hk⟩
      · exact hhead e' he'
      · exact hk ▸ Std.OrientedCmp.lt_of_gt hgt
      · obtain ⟨e'', he'', heq⟩ := List.mem_map.1 hk
        exact heq ▸ hhead e'' he''

/-- The value at a key. -/
def get? (t : Table cmp α) (k : κ) : Option α := lookup cmp k t.entries

/-- Whether the table has the key. -/
def contains (t : Table cmp α) (k : κ) : Bool := (t.get? k).isSome

/-- The table without a key. -/
def erase (t : Table cmp α) (k : κ) : Table cmp α :=
  ⟨t.entries.filter fun e => cmp k e.1 ≠ .eq, t.sorted.filter _⟩

/-- The table with every value changed. -/
def map {β : Type} (f : α → β) (t : Table cmp α) : Table cmp β :=
  ⟨t.entries.map fun e => (e.1, f e.2), t.sorted.map _ fun _ _ h => h⟩

def keys (t : Table cmp α) : List κ := t.entries.map (·.1)

def size (t : Table cmp α) : Nat := t.entries.length

variable [Std.TransCmp cmp]

/-- The table with a value put at a key. -/
def insert (t : Table cmp α) (k : κ) (v : α) : Table cmp α :=
  ⟨place cmp k v t.entries, pairwise_place t.sorted k v⟩

/-- The table with a value put at a key that it does not have yet. -/
def insertIfNew (t : Table cmp α) (k : κ) (v : α) : Table cmp α :=
  if t.contains k then t else t.insert k v

/-- The table of a list of entries; of two entries with the same key the later
    one counts. -/
def ofList (entries : List (κ × α)) : Table cmp α :=
  entries.foldl (fun t e => t.insert e.1 e.2) empty

end Table

end PageServer
