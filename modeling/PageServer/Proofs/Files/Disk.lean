import PageServer.Proofs.Files.Local
import PageServer.Proofs.Table

/-!
# Ways on a disk

A walk that comes to its end is a *trail* (`Disk.Trail`), and what holds of walks is shown
by induction on their trails. One that ends in a directory is a *way* (`Disk.Way`): it
passes through directories and links only. So it stays the same when files are made or changed
(`Disk.SameWays`), and a walk that starts with it goes on from its end
(`Disk.Way.walk_append`).

A text *leads* to a directory if names behind it are names in this directory
(`Disk.Leads`). Where there are no links among these, what a name is found to be
depends on the entry of that name alone (`Disk.locate_child`).
-/

namespace PageServer.Disk

variable {d d' : Disk} {k : Nat} {here place : DiskPlace} {name : Bytes}
  {rest cs : List Bytes} {m : Int}

/-! ### Entries -/

/-- What is at the places of a disk after an entry was put at one of them. -/
theorem entry?_put (d : Disk) (place : DiskPlace) (entry : DiskEntry) (other : DiskPlace) :
    entry? (d.put place entry) other = if other = place then some entry else d.entry? other := by
  cases other with
  | nil =>
    simp only [put, entry?, Table.get?_insert, Std.LawfulEqCmp.compare_eq_iff_eq,
      eq_comm (a := ([] : DiskPlace))]
    split <;> rfl
  | cons first others =>
    simp only [put, entry?, Table.get?_insert, Std.LawfulEqCmp.compare_eq_iff_eq]

theorem nameIn?_eq_none {directory : DiskPlace} (h : place.dropLast ≠ directory) :
    nameIn? directory place = none := by
  rw [nameIn?, if_neg]
  rintro ⟨hlength, hprefix⟩
  refine h ?_
  rw [List.dropLast_eq_take, hlength, Nat.add_sub_cancel]
  exact (List.prefix_iff_eq_take.1 (List.isPrefixOf_iff_prefix.1 hprefix)).symm

/-- What is put in a directory changes the names in this one alone. -/
theorem names_put {directory : DiskPlace} (h : place.dropLast ≠ directory) (d : Disk)
    (entry : DiskEntry) : (d.put place entry).names directory = d.names directory :=
  Table.filterMap_keys_insert (nameIn?_eq_none h) d.entries entry

/-- Files may have been made or changed between the two disks: all directories
    and links are the same. -/
structure SameWays (d d' : Disk) : Prop where
  home_eq : d'.home = d.home
  directory : ∀ place m, d.entry? place = some (.directory m) →
    d'.entry? place = some (.directory m)
  link : ∀ place target, d.entry? place = some (.link target) →
    d'.entry? place = some (.link target)

/-- What the file at a place holds, nothing if there is no file. -/
def contentAt (d : Disk) (place : DiskPlace) : Bytes :=
  match d.entry? place with
  | some (.file content _) => content
  | _ => []

/-- The second disk is the first one with this content in the file at a place, where a
    file was before, or nothing. -/
structure Rewritten (d d' : Disk) (place : DiskPlace) (content : Bytes) : Prop where
  home_eq : d'.home = d.home
  isFile : ∀ e, d.entry? place = some e → ∃ c m, e = .file c m
  entry?_eq : ∃ m, d'.entry? place = some (.file content m)
  other : ∀ q, q ≠ place → d'.entry? q = d.entry? q
  names_eq : ∀ directory, place.dropLast ≠ directory → d'.names directory = d.names directory

theorem rewritten_put (h : ∀ e, d.entry? place = some e → ∃ c m, e = .file c m) (content : Bytes)
    (m : Int) :
    Rewritten d (d.put place (.file content m)) place content where
  home_eq := rfl
  isFile := h
  entry?_eq := ⟨m, by rw [entry?_put, if_pos rfl]⟩
  other q hq := by rw [entry?_put, if_neg hq]
  names_eq _ hdirectory := names_put hdirectory d _

namespace Rewritten

variable {content : Bytes}

theorem sameWays (h : Rewritten d d' place content) : SameWays d d' := by
  have hother : ∀ q e, d.entry? q = some e → (∀ c m, e ≠ .file c m) → d'.entry? q = some e := by
    intro q e he hfile
    rw [h.other, he]
    rintro rfl
    obtain ⟨c, m, heq⟩ := h.isFile e he
    exact hfile c m heq
  exact ⟨h.home_eq, fun q m he => hother q _ he fun _ _ => nofun,
    fun q target he => hother q _ he fun _ _ => nofun⟩

theorem contentAt_eq (h : Rewritten d d' place content) (q : DiskPlace) :
    d'.contentAt q = if q = place then content else d.contentAt q := by
  split
  · next hq =>
    obtain ⟨m, hentry⟩ := h.entry?_eq
    rw [hq, contentAt, hentry]
  · next hq => rw [contentAt, contentAt, h.other q hq]

/-- Bytes are written into the file. -/
theorem write (h : Rewritten d d' place content) (offset : Nat) (data : Bytes) :
    Rewritten d (d'.write place offset data) place
      (if data = [] then content else content.overwrite offset data) := by
  obtain ⟨m, hentry⟩ := h.entry?_eq
  by_cases hdata : data = []
  · rw [if_pos hdata, Disk.write, hentry]
    dsimp only
    rw [if_pos (List.isEmpty_iff.2 hdata)]
    exact h
  · rw [if_neg hdata, Disk.write, hentry]
    dsimp only
    rw [if_neg (mt List.isEmpty_iff.1 hdata)]
    exact ⟨h.home_eq, h.isFile, ⟨m, by rw [entry?_put, if_pos rfl]⟩,
      fun q hq => by rw [entry?_put, if_neg hq, h.other q hq],
      fun directory hne => (names_put hne d' _).trans (h.names_eq directory hne)⟩

end Rewritten

/-! ### Steps of a walk -/

/-- The component is the name of an entry, and means no direction. -/
def IsName (name : Bytes) : Prop := name ≠ [] ∧ name ≠ "." ∧ name ≠ ".."

theorem walk_nil {followLast : Bool} :
    d.walk followLast k here [] = .ok (.found here ((d.entry? here).getD (.directory 0))) := by
  cases k <;> rfl

theorem walk_stay {followLast : Bool} (hname : name = [] ∨ name = ".") :
    d.walk followLast k here (name :: rest) = d.walk followLast k here rest := by
  have hstay : (name.isEmpty || name == ".") = true := by
    rcases hname with rfl | rfl <;> rfl
  cases k <;> simp only [walk, walkWith, hstay, if_true]

theorem walk_up {followLast : Bool} :
    d.walk followLast k here (".." :: rest) = d.walk followLast k here.dropLast rest := by
  cases k <;> rfl

/-- How a walk goes on from a name, if links are followed there. -/
theorem walk_name {followLast : Bool} (hname : IsName name)
    (hfollow : followLast = true ∨ rest ≠ []) :
    d.walk followLast k here (name :: rest) =
      if maxName < name.length then .error .nameTooLong
      else
        match d.entry? (here ++ [name]) with
        | none =>
          if rest.all (·.isEmpty) then .ok (.absent here name (!rest.isEmpty)) else .error .missing
        | some (.directory _) => d.walk followLast k (here ++ [name]) rest
        | some (.file content modified) =>
          if rest.isEmpty then .ok (.found (here ++ [name]) (.file content modified))
          else .error .notDirectory
        | some (.link target) =>
          match k with
          | 0 => .error .tooManyLinks
          | k + 1 =>
            d.walk followLast k (if isAbsolute target then [] else here)
              (components target ++ rest) := by
  obtain ⟨hempty, hdot, hup⟩ := hname
  have hstay : ¬ (name.isEmpty || name == ".") = true := by simp [hempty, hdot]
  have hup : ¬ (name == "..") = true := by simp [hup]
  have hfollow : ¬ (rest.isEmpty && !followLast) = true := by
    rcases hfollow with rfl | hrest
    · simp
    · simp [hrest]
  cases k <;> simp only [walk, walkWith, hstay, hup, hfollow] <;> rfl

/-- At its end a walk finds what has the name there, a link as well if it does not follow it. -/
theorem walk_end {e : DiskEntry} (hname : IsName name) (hlength : name.length ≤ maxName)
    (hentry : d.entry? (here ++ [name]) = some e) :
    d.walk false k here [name] = .ok (.found (here ++ [name]) e) := by
  obtain ⟨hempty, hdot, hup⟩ := hname
  have hlength := Nat.not_lt.2 hlength
  cases k <;> cases e <;> simp [walk, walkWith, hempty, hdot, hup, hlength, hentry]

/-! ### Trails -/

/-- A walk from a directory along components, through at most so many links, that leads to this
    spot. A link at its end is followed. -/
inductive Trail (d : Disk) : Nat → DiskPlace → List Bytes → Spot → Prop
  | ended {k : Nat} {here : DiskPlace} :
      Trail d k here [] (.found here ((d.entry? here).getD (.directory 0)))
  | stay {k : Nat} {here : DiskPlace} {name : Bytes} {rest : List Bytes} {spot : Spot}
      (hname : name = [] ∨ name = ".") (h : Trail d k here rest spot) :
      Trail d k here (name :: rest) spot
  | up {k : Nat} {here : DiskPlace} {rest : List Bytes} {spot : Spot}
      (h : Trail d k here.dropLast rest spot) : Trail d k here (".." :: rest) spot
  | down {k : Nat} {here : DiskPlace} {name : Bytes} {rest : List Bytes} {spot : Spot} {m : Int}
      (hname : IsName name) (hlength : name.length ≤ maxName)
      (hentry : d.entry? (here ++ [name]) = some (.directory m))
      (h : Trail d k (here ++ [name]) rest spot) : Trail d k here (name :: rest) spot
  | link {k : Nat} {here : DiskPlace} {name target : Bytes} {rest : List Bytes} {spot : Spot}
      (hname : IsName name) (hlength : name.length ≤ maxName)
      (hentry : d.entry? (here ++ [name]) = some (.link target))
      (h : Trail d k (if isAbsolute target then [] else here) (components target ++ rest) spot) :
      Trail d (k + 1) here (name :: rest) spot
  | file {k : Nat} {here : DiskPlace} {name content : Bytes} {m : Int}
      (hname : IsName name) (hlength : name.length ≤ maxName)
      (hentry : d.entry? (here ++ [name]) = some (.file content m)) :
      Trail d k here [name] (.found (here ++ [name]) (.file content m))
  | absent {k : Nat} {here : DiskPlace} {name : Bytes} {rest : List Bytes}
      (hname : IsName name) (hlength : name.length ≤ maxName)
      (hentry : d.entry? (here ++ [name]) = none) (hrest : rest.all (·.isEmpty)) :
      Trail d k here (name :: rest) (.absent here name (!rest.isEmpty))

/-- A walk that follows links is a trail. -/
theorem trail_of_walk {spot : Spot} (h : d.walk true k here cs = .ok spot) :
    Trail d k here cs spot := by
  -- By induction on the links that may still be followed, and between two links on the
  -- components.
  induction k using Nat.strong_induction_on generalizing here cs with
  | _ k ihlink =>
  induction cs generalizing here with
  | nil =>
    rw [walk_nil] at h
    cases h
    exact .ended
  | cons name rest ih =>
    by_cases hstay : name = [] ∨ name = "."
    · rw [walk_stay hstay] at h
      exact .stay hstay (ih h)
    by_cases hup : name = ".."
    · subst hup
      rw [walk_up] at h
      exact .up (ih h)
    have hname : IsName name := ⟨(not_or.1 hstay).1, (not_or.1 hstay).2, hup⟩
    rw [walk_name hname (.inl rfl)] at h
    split at h
    · cases h
    next hlength =>
    have hlength := Nat.le_of_not_lt hlength
    split at h
    · next hentry =>
      split at h <;> cases h
      next hrest => exact .absent hname hlength hentry hrest
    · next hentry => exact .down hname hlength hentry (ih h)
    · next hentry =>
      split at h <;> cases h
      next hrest =>
      obtain rfl := List.isEmpty_iff.1 hrest
      exact .file hname hlength hentry
    · next hentry =>
      cases k with
      | zero => cases h
      | succ j => exact .link hname hlength hentry (ihlink j (Nat.lt_succ_self j) h)

/-! ### Ways -/

/-- A walk from a directory along components, through at most so many links, that
    ends in a directory. -/
inductive Way (d : Disk) : Nat → DiskPlace → List Bytes → DiskPlace → Prop
  | ended {k : Nat} {here : DiskPlace} : Way d k here [] here
  | stay {k : Nat} {here place : DiskPlace} {name : Bytes} {rest : List Bytes}
      (hname : name = [] ∨ name = ".") (h : Way d k here rest place) :
      Way d k here (name :: rest) place
  | up {k : Nat} {here place : DiskPlace} {rest : List Bytes}
      (h : Way d k here.dropLast rest place) :
      Way d k here (".." :: rest) place
  | down {k : Nat} {here place : DiskPlace} {name : Bytes} {rest : List Bytes} {m : Int}
      (hname : IsName name) (hlength : name.length ≤ maxName)
      (hentry : d.entry? (here ++ [name]) = some (.directory m))
      (h : Way d k (here ++ [name]) rest place) : Way d k here (name :: rest) place
  | link {k : Nat} {here place : DiskPlace} {name target : Bytes} {rest : List Bytes}
      (hname : IsName name) (hlength : name.length ≤ maxName)
      (hentry : d.entry? (here ++ [name]) = some (.link target))
      (h : Way d k (if isAbsolute target then [] else here) (components target ++ rest) place) :
      Way d (k + 1) here (name :: rest) place

/-- A walk that ends in a directory is a way. -/
theorem way_of_walk (h : d.walk true k here cs = .ok (.found place (.directory m))) :
    Way d k here cs place := by
  replace h := trail_of_walk h
  generalize hspot : Spot.found place (.directory m) = spot at h
  induction h with
  | ended =>
    obtain ⟨rfl, -⟩ := Spot.found.inj hspot
    exact .ended
  | stay hname _ ih => exact .stay hname (ih hspot)
  | up _ ih => exact .up (ih hspot)
  | down hname hlength hentry _ ih => exact .down hname hlength hentry (ih hspot)
  | link hname hlength hentry _ ih => exact .link hname hlength hentry (ih hspot)
  | file | absent => cases hspot

/-- A walk that starts with a way goes on from its end. -/
theorem Way.walk_append (h : Way d k here cs place) :
    ∃ k', ∀ followLast more, followLast = true ∨ more ≠ [] →
      d.walk followLast k here (cs ++ more) = d.walk followLast k' place more := by
  -- With more behind it, a component is followed even if it was the last one.
  have happend : ∀ {followLast : Bool} {rest more : List Bytes},
      followLast = true ∨ more ≠ [] → followLast = true ∨ rest ++ more ≠ [] :=
    fun hmore => hmore.imp_right fun hne => List.append_ne_nil_of_right_ne_nil _ hne
  induction h with
  | ended => exact ⟨_, fun _ _ _ => rfl⟩
  | stay hname _ ih =>
    obtain ⟨k', ih⟩ := ih
    exact ⟨k', fun _ more hmore => by rw [List.cons_append, walk_stay hname, ih _ _ hmore]⟩
  | up _ ih =>
    obtain ⟨k', ih⟩ := ih
    exact ⟨k', fun _ more hmore => by rw [List.cons_append, walk_up, ih _ _ hmore]⟩
  | down hname hlength hentry _ ih =>
    obtain ⟨k', ih⟩ := ih
    refine ⟨k', fun _ more hmore => ?_⟩
    rw [List.cons_append, walk_name hname (happend hmore), if_neg (Nat.not_lt.2 hlength), hentry]
    exact ih _ _ hmore
  | link hname hlength hentry _ ih =>
    obtain ⟨k', ih⟩ := ih
    refine ⟨k', fun _ more hmore => ?_⟩
    rw [List.cons_append, walk_name hname (happend hmore), if_neg (Nat.not_lt.2 hlength), hentry]
    exact (congrArg _ (List.append_assoc _ _ _).symm).trans (ih _ _ hmore)

/-- Files are of no matter to a way. -/
theorem Way.sameWays (h : Way d k here cs place) (hsame : SameWays d d') :
    Way d' k here cs place := by
  induction h with
  | ended => exact .ended
  | stay hname _ ih => exact .stay hname ih
  | up _ ih => exact .up ih
  | down hname hlength hentry _ ih => exact .down hname hlength (hsame.directory _ _ hentry) ih
  | link hname hlength hentry _ ih => exact .link hname hlength (hsame.link _ _ hentry) ih

/-! ### Files at the ends of walks -/

/-- What was found is there, and there is nothing where something was missed. The root may
    be found without an entry. -/
def Spot.Holds (d : Disk) : Spot → Prop
  | .found place entry => (d.entry? place).getD (.directory 0) = entry
  | .absent directory name _ => d.entry? (directory ++ [name]) = none

/-- A walk ends with what is there. -/
theorem holds_of_walk {spot : Spot} (h : d.walk true k here cs = .ok spot) : spot.Holds d := by
  replace h := trail_of_walk h
  induction h with
  | ended => rfl
  | stay _ _ ih | up _ ih | down _ _ _ _ ih | link _ _ _ _ ih => exact ih
  | file _ _ hentry => exact congrArg (·.getD (.directory 0)) hentry
  | absent _ _ hentry _ => exact hentry

/-- What a path leads to. -/
theorem locate_eq_ok_iff {path : Bytes} {spot : Spot} :
    d.locate true path = .ok spot ↔ path.toNul ≠ [] ∧ path.toNul.length ≤ maxPath ∧
      d.walk true maxLinks (if isAbsolute path.toNul then [] else d.home)
        (components path.toNul) = .ok spot := by
  rw [locate]
  by_cases hempty : path.toNul = []
  · simp [hempty]
  by_cases hlength : maxPath < path.toNul.length
  · simp [hempty, hlength, Nat.not_le.2 hlength]
  · simp [hempty, hlength, Nat.not_lt.1 hlength]

theorem find_eq_ok_iff {path : Bytes} {entry : DiskEntry} :
    d.find true path = .ok (place, entry) ↔ d.locate true path = .ok (.found place entry) := by
  rw [find]
  rcases d.locate true path with e | (_ | _) <;> simp

/-- What has a status is found somewhere. -/
theorem exists_find_of_status {path : Bytes} {entry : DiskEntry}
    (h : d.status path = .ok entry) : ∃ place, d.find true path = .ok (place, entry) := by
  rw [status] at h
  rcases hfind : d.find true path with e | ⟨place, found⟩
  · rw [hfind] at h
    cases h
  · rw [hfind] at h
    cases h
    exact ⟨place, rfl⟩

/-- A path that leads to a file leads to where this file is. -/
theorem entry?_of_find {path content : Bytes}
    (h : d.find true path = .ok (place, .file content m)) :
    d.entry? place = some (.file content m) := by
  have hholds := holds_of_walk (locate_eq_ok_iff.1 (find_eq_ok_iff.1 h)).2.2
  rw [Spot.Holds] at hholds
  cases hentry : d.entry? place with
  | none => rw [hentry] at hholds; cases hholds
  | some e => rw [hentry] at hholds; exact congrArg some hholds

/-- The file at the place is found, or it is missed there and can be made. -/
def Spot.ForFile (place : DiskPlace) : Spot → Prop
  | .found there entry => there = place ∧ ∃ content m, entry = .file content m
  | .absent directory name slashed => directory ++ [name] = place ∧ slashed = false

/-- Other files are of no matter to a walk that ends at a file, or where it is made. -/
theorem walk_sameWays {content : Bytes} {spot : Spot} (h : d.walk true k here cs = .ok spot)
    (hsame : SameWays d d') (hplace : d'.entry? place = some (.file content m))
    (hspot : spot.ForFile place) :
    d'.walk true k here cs = .ok (.found place (.file content m)) := by
  replace h := trail_of_walk h
  induction h with
  | ended =>
    obtain ⟨rfl, -⟩ := hspot
    rw [walk_nil, hplace]
    rfl
  | stay hname _ ih =>
    rw [walk_stay hname]
    exact ih hspot
  | up _ ih =>
    rw [walk_up]
    exact ih hspot
  | down hname hlength hentry _ ih =>
    rw [walk_name hname (.inl rfl), if_neg (Nat.not_lt.2 hlength), hsame.directory _ _ hentry]
    exact ih hspot
  | link hname hlength hentry _ ih =>
    rw [walk_name hname (.inl rfl), if_neg (Nat.not_lt.2 hlength), hsame.link _ _ hentry]
    exact ih hspot
  | file hname hlength _ =>
    obtain ⟨rfl, -⟩ := hspot
    rw [walk_name hname (.inl rfl), if_neg (Nat.not_lt.2 hlength), hplace]
    rfl
  | absent hname hlength _ _ =>
    -- The file is made where the walk missed it.
    obtain ⟨rfl, hslashed⟩ := hspot
    rw [walk_name hname (.inl rfl), if_neg (Nat.not_lt.2 hlength), hplace]
    dsimp only
    rw [if_pos (by simpa using hslashed)]

/-- Other files are of no matter to a path that leads to a file, or to where it is made. -/
theorem find_of_sameWays {path content : Bytes} {spot : Spot} (h : d.locate true path = .ok spot)
    (hspot : spot.ForFile place) (hsame : SameWays d d')
    (hplace : d'.entry? place = some (.file content m)) :
    d'.find true path = .ok (place, .file content m) := by
  obtain ⟨hempty, hlength, h⟩ := locate_eq_ok_iff.1 h
  refine find_eq_ok_iff.2 (locate_eq_ok_iff.2 ⟨hempty, hlength, ?_⟩)
  rw [hsame.home_eq]
  exact walk_sameWays h hsame hplace hspot

/-- Other files are of no matter to a path that leads to a file. -/
theorem find_file_sameWays {path content : Bytes}
    (h : d.find true path = .ok (place, .file content m)) (hsame : SameWays d d')
    (hplace : d'.entry? place = d.entry? place) :
    d'.find true path = .ok (place, .file content m) :=
  find_of_sameWays (find_eq_ok_iff.1 h) ⟨rfl, _, _, rfl⟩ hsame (hplace.trans (entry?_of_find h))

/-- Opening a file for writing makes it if it is missing. -/
theorem openForWriting_eq_ok {path : Bytes} (h : d.openForWriting path = .ok (place, d')) :
    Rewritten d d' place (d.contentAt place) ∧
      ∃ spot, d.locate true path = .ok spot ∧ spot.ForFile place := by
  rw [openForWriting] at h
  split at h
  · cases h
  · next hlocate =>
    cases h
    have hentry := entry?_of_find (find_eq_ok_iff.2 hlocate)
    refine ⟨⟨rfl, fun e he => ?_, ?_, fun _ _ => rfl, fun _ _ => rfl⟩, _, hlocate, rfl, _, _, rfl⟩
    · exact ⟨_, _, Option.some.inj (he.symm.trans hentry)⟩
    · exact ⟨_, by rw [contentAt, hentry]⟩
  · cases h
  · next directory name slashed hlocate =>
    split at h <;> cases h
    next hslashed =>
    have hentry : d.entry? (directory ++ [name]) = none :=
      holds_of_walk (locate_eq_ok_iff.1 hlocate).2.2
    refine ⟨?_, _, hlocate, rfl, eq_false_of_ne_true hslashed⟩
    rw [contentAt, hentry]
    exact rewritten_put (fun e he => by rw [hentry] at he; cases he) [] 0

/-! ### Names in a directory -/

/-- The text leads to a directory: names behind it, and behind a slash, are names in
    this directory. The empty text leads to the root. -/
def Leads (d : Disk) (base : Bytes) (place : DiskPlace) : Prop :=
  Way d maxLinks (if isAbsolute (base ++ [Byte.slash]) then [] else d.home) (components base) place

/-- The root is led to by one slash as by nothing. -/
theorem leads_nil_of_slash (h : d.Leads [Byte.slash] place) : d.Leads [] place := by
  have hway : Way d maxLinks [] ([] :: [[]]) place := h
  generalize hname : ([] : Bytes) = name at hway
  cases hway with
  | stay _ h => exact hname ▸ h
  | up _ => cases hname
  | down hisName _ _ _ => exact absurd hname.symm hisName.1
  | link hisName _ _ _ => exact absurd hname.symm hisName.1

/-- What it is for a path to lead to a directory. -/
theorem find_eq_directory_iff {path : Bytes} :
    d.find true path = .ok (place, .directory m) ↔
      path.toNul ≠ [] ∧ path.toNul.length ≤ maxPath ∧
        Way d maxLinks (if isAbsolute path.toNul then [] else d.home) (components path.toNul)
          place ∧
        (d.entry? place).getD (.directory 0) = .directory m := by
  -- A way that leads to a directory is walked to its end, and the entry there is found.
  have hend : ∀ {here cs}, Way d maxLinks here cs place →
      d.walk true maxLinks here cs = .ok (.found place ((d.entry? place).getD (.directory 0))) := by
    intro here cs hway
    obtain ⟨k, hwalk⟩ := hway.walk_append
    have hnil := hwalk true [] (.inl rfl)
    rwa [List.append_nil, walk_nil] at hnil
  rw [find, locate]
  constructor
  · intro h
    split at h
    · cases h
    · cases h
    next hlocate =>
    cases h
    split at hlocate
    · cases hlocate
    next hempty =>
    split at hlocate
    · cases hlocate
    next hlength =>
    have hway := way_of_walk hlocate
    rw [hend hway, Except.ok.injEq, Spot.found.injEq] at hlocate
    exact ⟨mt List.isEmpty_iff.2 hempty, Nat.le_of_not_lt hlength, hway, hlocate.2⟩
  · rintro ⟨hempty, hlength, hway, hentry⟩
    rw [if_neg (mt List.isEmpty_iff.1 hempty), if_neg (Nat.not_lt.2 hlength), hend hway, hentry]

theorem leads_of_find {base : Bytes} (hzero : 0 ∉ base)
    (h : d.find true base = .ok (place, .directory m)) : d.Leads base place := by
  obtain ⟨hempty, -, hway, -⟩ := find_eq_directory_iff.1 h
  rw [Bytes.toNul_of_not_mem hzero] at hempty hway
  have hstart : isAbsolute (base ++ [Byte.slash]) = isAbsolute base := by
    cases base with
    | nil => exact absurd rfl hempty
    | cons b base => rfl
  rw [Leads, hstart]
  exact hway

/-- Files are of no matter to where a path leads. -/
theorem find_sameWays {path : Bytes} (h : d.find true path = .ok (place, .directory m))
    (hsame : SameWays d d') (hplace : d'.entry? place = d.entry? place) :
    d'.find true path = .ok (place, .directory m) := by
  obtain ⟨hempty, hlength, hway, hentry⟩ := find_eq_directory_iff.1 h
  refine find_eq_directory_iff.2 ⟨hempty, hlength, ?_, hplace ▸ hentry⟩
  rw [hsame.home_eq]
  exact hway.sameWays hsame

theorem locate_toNul (d : Disk) (followLast : Bool) (path : Bytes) :
    d.locate followLast path.toNul = d.locate followLast path := by
  simp only [locate, Bytes.toNul_toNul]

/-- Names with slashes in front of them are components behind a text. -/
theorem components_below (base : Bytes) {names : List Bytes} (h : ∀ s ∈ names, Byte.slash ∉ s) :
    components (base ++ LocalFiles.slashed names) = components base ++ names := by
  refine LocalFiles.slashed_injective (Bytes.not_mem_splitOn _ _) ?_ ?_
  · exact List.forall_mem_append.2 ⟨Bytes.not_mem_splitOn _ base, h⟩
  · have hbase := LocalFiles.slashed_splitOn base
    rw [LocalFiles.slashed] at hbase
    rw [components, LocalFiles.slashed_splitOn, LocalFiles.slashed, LocalFiles.slashed,
      List.flatMap_append, components, hbase]
    rfl

theorem components_child (base : Bytes) (hslash : Byte.slash ∉ name) :
    components (base ++ Byte.slash :: name) = components base ++ [name] := by
  have hbelow := components_below base (List.forall_mem_singleton.2 hslash)
  rwa [LocalFiles.slashed, List.flatMap_singleton] at hbelow

/-- What a name in a directory is found to be, if it is no link. -/
def lookIn (d : Disk) (place : DiskPlace) (name : Bytes) : Except DiskError Spot :=
  if name = [] ∨ name = "." then .ok (.found place ((d.entry? place).getD (.directory 0)))
  else if maxName < name.length then .error .nameTooLong
  else
    match d.entry? (place ++ [name]) with
    | none => .ok (.absent place name false)
    | some entry => .ok (.found (place ++ [name]) entry)

theorem isName_of_maxName_lt (h : maxName < name.length) : IsName name := by
  refine ⟨?_, ?_, ?_⟩ <;> rintro rfl <;> exact absurd h (by decide)

theorem lookIn_eq_ok {spot : Spot} (h : d.lookIn place name = .ok spot) :
    spot = .found place ((d.entry? place).getD (.directory 0)) ∧ (name = [] ∨ name = ".") ∨
      (name ≠ [] ∧ name ≠ "." ∧ name.length ≤ maxName) ∧
        ((∃ e, d.entry? (place ++ [name]) = some e ∧ spot = .found (place ++ [name]) e) ∨
          d.entry? (place ++ [name]) = none ∧ spot = .absent place name false) := by
  rw [lookIn] at h
  split at h
  · next hstay =>
    cases h
    exact .inl ⟨rfl, hstay⟩
  next hstay =>
  split at h
  · cases h
  next hlength =>
  refine .inr ⟨⟨(not_or.1 hstay).1, (not_or.1 hstay).2, Nat.le_of_not_lt hlength⟩, ?_⟩
  split at h <;> cases h
  · next hentry => exact .inr ⟨hentry, rfl⟩
  · next entry hentry => exact .inl ⟨entry, hentry, rfl⟩

theorem walk_last {followLast : Bool} (hup : name ≠ "..")
    (hlink : ∀ target, d.entry? (place ++ [name]) ≠ some (.link target)) :
    d.walk followLast k place [name] = d.lookIn place name := by
  by_cases hstay : name = [] ∨ name = "."
  · rw [walk_stay hstay, walk_nil, lookIn, if_pos hstay]
  -- No link is met, so it does not matter what would be done with one.
  have hwith : ∀ onLink, d.walkWith followLast onLink place [name] = d.lookIn place name := by
    intro onLink
    have hempty : (name.isEmpty || name == ".") = false := by simpa using hstay
    have hdots : (name == "..") = false := by simpa using hup
    rw [lookIn, if_neg hstay]
    simp only [walkWith, hempty, hdots, Bool.false_eq_true, if_false]
    split
    · rfl
    cases hentry : d.entry? (place ++ [name]) with
    | none => rfl
    | some entry =>
      cases entry with
      | directory m => simp
      | file content m => rfl
      | link target => exact absurd hentry (hlink target)
  cases k <;> exact hwith _

/-- A name behind a text that leads to a directory is looked up in this
    directory. -/
theorem locate_child {followLast : Bool} {base : Bytes} (h : d.Leads base place)
    (hzero : 0 ∉ base ++ name) (hslash : Byte.slash ∉ name) (hup : name ≠ "..")
    (hlink : ∀ target, d.entry? (place ++ [name]) ≠ some (.link target)) :
    d.locate followLast (base ++ Byte.slash :: name) =
      if maxPath < base.length + 1 + name.length then .error .nameTooLong
      else d.lookIn place name := by
  have hseen : (base ++ Byte.slash :: name).toNul = base ++ Byte.slash :: name := by
    refine Bytes.toNul_of_not_mem fun hmem => hzero ?_
    have hslash : (0 : Byte) ≠ Byte.slash := by decide
    simpa [hslash] using hmem
  have hstart : isAbsolute (base ++ Byte.slash :: name) = isAbsolute (base ++ [Byte.slash]) := by
    cases base <;> rfl
  obtain ⟨k, hwalk⟩ := h.walk_append
  rw [locate, hseen, if_neg (by simp), hstart, components_child _ hslash,
    hwalk _ _ (.inr (List.cons_ne_nil _ _)), walk_last hup hlink]
  simp only [List.length_append, List.length_cons, Nat.add_assoc, Nat.add_comm 1]

/-- The name can be that of an entry in a directory. -/
structure ProperName (name : Bytes) : Prop where
  isName : IsName name
  length_le : name.length ≤ maxName
  slash_not_mem : Byte.slash ∉ name
  zero_not_mem : 0 ∉ name

instance (name : Bytes) : Decidable (IsName name) := inferInstanceAs (Decidable (_ ∧ _ ∧ _))

instance (name : Bytes) : Decidable (ProperName name) :=
  decidable_of_iff (IsName name ∧ name.length ≤ maxName ∧ Byte.slash ∉ name ∧ 0 ∉ name)
    ⟨fun ⟨hname, hlength, hslash, hzero⟩ => ⟨hname, hlength, hslash, hzero⟩,
      fun h => ⟨h.isName, h.length_le, h.slash_not_mem, h.zero_not_mem⟩⟩

/-- An entry of a directory is found under its name, links followed or not. -/
theorem find_child {followLast : Bool} {base : Bytes} {entry : DiskEntry} (h : d.Leads base place)
    (hzero : 0 ∉ base) (hname : ProperName name) (hentry : d.entry? (place ++ [name]) = some entry)
    (hlink : ∀ target, entry ≠ .link target) (hlength : base.length + 1 + name.length ≤ maxPath) :
    d.find followLast (base ++ Byte.slash :: name) = .ok (place ++ [name], entry) := by
  obtain ⟨hempty, hdot, hup⟩ := hname.isName
  have hzero : 0 ∉ base ++ name := fun hmem =>
    (List.mem_append.1 hmem).elim hzero hname.zero_not_mem
  have hnolink : ∀ target, d.entry? (place ++ [name]) ≠ some (.link target) := by
    intro target heq
    exact hlink target (Option.some.inj (hentry.symm.trans heq))
  rw [find, locate_child h hzero hname.slash_not_mem hup hnolink, if_neg (Nat.not_lt.2 hlength),
    lookIn, if_neg (not_or.2 ⟨hempty, hdot⟩), if_neg (Nat.not_lt.2 hname.length_le), hentry]

/-- A name below the root may have one slash or two in front. -/
theorem locate_slash_slash (d : Disk) (hslash : Byte.slash ∉ name) :
    d.locate true (Byte.slash :: Byte.slash :: name) = d.locate true (Byte.slash :: name) := by
  have hname : Byte.slash ∉ name.toNul := fun hmem => hslash (name.toNul_prefix.subset hmem)
  have hwalk : d.walk true maxLinks [] (components (Byte.slash :: Byte.slash :: name.toNul)) =
      d.walk true maxLinks [] [name.toNul] := by
    have hcomponents := components_child [Byte.slash] hname
    rw [List.singleton_append] at hcomponents
    rw [hcomponents]
    exact (walk_stay (.inl rfl)).trans (walk_stay (.inl rfl))
  have hwalk' : d.walk true maxLinks [] (components (Byte.slash :: name.toNul)) =
      d.walk true maxLinks [] [name.toNul] := by
    have hcomponents := components_child [] hname
    rw [List.nil_append] at hcomponents
    rw [hcomponents]
    exact walk_stay (.inl rfl)
  rw [locate, locate, Bytes.toNul_cons (by decide), Bytes.toNul_cons (by decide)]
  simp only [List.isEmpty_cons, Bool.false_eq_true, if_false, isAbsolute, List.head?_cons,
    beq_self_eq_true, if_true, hwalk, hwalk', List.length_cons]
  by_cases hlong : maxName < name.toNul.length
  · -- Only so long a name makes one of the paths too long, and it is too long itself.
    have hwalk : d.walk true maxLinks [] [name.toNul] = .error .nameTooLong := by
      rw [walk_name (isName_of_maxName_lt hlong) (.inl rfl), if_pos hlong]
    rw [hwalk, ite_self, ite_self]
  · have hmax : maxName + 2 ≤ maxPath := by decide
    rw [if_neg (by omega), if_neg (by omega)]

end PageServer.Disk
