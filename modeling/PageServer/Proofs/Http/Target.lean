import PageServer.Http.Target
import PageServer.Proofs.Table
import PageServer.Proofs.Text
import Mathlib.Data.List.Forall2

/-!
# Targets as they are read

What there is to read of a target is told part by part (`Target.Reading`): the origin, which
is the target without a scheme and an authority in front of it, the path and the query that
the origin is cut into, the pieces of the path and the pairs of the query. Each target has
one reading (`Target.exists_reading`), and parsing goes by it alone
(`Target.Reading.Of.parse_eq`).

A target can be written in many ways: with a scheme and an authority, with any number of
slashes around its segments, with keys that have no value. However it is written, its
segments and its parameters are read back (`Target.parse_exact`).
-/

namespace PageServer.Http.Target

variable {text scheme : Bytes}

/-! ### The parts of a target -/

/-- No path and no query starts in the text. -/
def PathFree (s : Bytes) : Prop := Byte.slash ∉ s ∧ Byte.question ∉ s

instance (s : Bytes) : Decidable (PathFree s) :=
  inferInstanceAs (Decidable (Byte.slash ∉ s ∧ Byte.question ∉ s))

/-- The second text is the first one without a scheme and an authority. They are there if
    neither a path nor a query starts before the first `://`, and the origin starts with a
    path or a query, or is empty. -/
inductive OriginOf : Bytes → Bytes → Prop
  | absolute {scheme authority origin : Bytes} (hscheme : PathFree scheme)
      (hauthority : PathFree authority)
      (horigin : ∀ b ∈ origin.head?, b = Byte.slash ∨ b = Byte.question) :
      OriginOf (scheme ++ "://" ++ (authority ++ origin)) origin
  | plain {text : Bytes} (h : ∀ scheme rest, PathFree scheme → text ≠ scheme ++ "://" ++ rest) :
      OriginOf text text

/-- A target part by part. -/
structure Reading where
  origin : Bytes
  path : Bytes
  query : Bytes
  /-- What stands between the slashes of the path. -/
  pieces : List Bytes
  /-- Keys and values. -/
  pairs : List (Bytes × Bytes)

namespace Reading

/-- The reading is that of the text. -/
structure Of (r : Reading) (text : Bytes) : Prop where
  origin : OriginOf text r.origin
  path : r.origin.CutAt Byte.question r.path r.query
  pieces : r.path.PiecesOf Byte.slash r.pieces
  pairs : ∃ texts, r.query.PiecesOf Byte.ampersand texts ∧
    List.Forall₂ (fun text pair => Bytes.CutAt Byte.equals text pair.1 pair.2) texts r.pairs

/-- The pieces that are not empty. -/
def segments (r : Reading) : List Bytes := r.pieces.filter (· ≠ [])

/-- The pairs whose key is not empty. -/
def named (r : Reading) : List (Bytes × Bytes) := r.pairs.filter (·.1 ≠ [])

/-- The value of the last pair with the key. -/
def value? (r : Reading) (key : Bytes) : Option Bytes :=
  (r.named.reverse.find? (·.1 = key)).map (·.2)

end Reading

/-! ### Scheme and authority -/

theorem isPathStart_iff {b : Byte} : isPathStart b ↔ b = Byte.slash ∨ b = Byte.question := by
  simp [isPathStart]

theorem pathFree_iff {s : Bytes} : PathFree s ↔ ∀ b ∈ s, (!isPathStart b) = true := by
  simp only [Bool.not_eq_true', ← Bool.not_eq_true, isPathStart_iff, not_or]
  exact ⟨fun h b hb => ⟨fun heq => h.1 (heq ▸ hb), fun heq => h.2 (heq ▸ hb)⟩,
    fun h => ⟨fun hb => (h _ hb).1 rfl, fun hb => (h _ hb).2 rfl⟩⟩

/-- The first `://` of a text stands where a scheme ends. -/
theorem find?_scheme (h : Byte.slash ∉ scheme) (rest : Bytes) :
    Bytes.find? "://" (scheme ++ "://" ++ rest) = some scheme.length := by
  induction scheme with
  | nil =>
    rw [List.nil_append, show ("://" : Bytes) ++ rest = 58 :: 47 :: 47 :: rest from rfl,
      Bytes.find?_cons, if_pos ⟨rest, rfl⟩]
    rfl
  | cons b scheme ih =>
    rw [List.mem_cons, not_or] at h
    rw [List.cons_append, List.cons_append, Bytes.find?_cons, if_neg, ih h.2]
    · rfl
    · -- The byte behind the first one is no slash.
      intro hfront
      obtain ⟨-, hfront⟩ := List.cons_prefix_cons.1 hfront
      cases scheme with
      | nil => exact absurd (List.cons_prefix_cons.1 hfront).1 (by decide)
      | cons c scheme =>
        exact h.2 (List.mem_cons.2 (.inl (List.cons_prefix_cons.1 hfront).1))

theorem dropAuthority_absolute {authority origin : Bytes} (hscheme : PathFree scheme)
    (hauthority : PathFree authority)
    (horigin : ∀ b ∈ origin.head?, b = Byte.slash ∨ b = Byte.question) :
    dropAuthority (scheme ++ "://" ++ (authority ++ origin)) = origin := by
  have hfree : scheme.length ≤
      ((scheme ++ "://" ++ (authority ++ origin)).takeWhile fun b => !isPathStart b).length := by
    rw [List.append_assoc, List.takeWhile_append_of_pos (pathFree_iff.1 hscheme),
      List.length_append]
    exact Nat.le_add_right _ _
  have hdrop : (scheme ++ "://" ++ (authority ++ origin)).drop (scheme.length + 3) =
      authority ++ origin := List.drop_left' (by simp [ascii])
  have hhead : ∀ b ∈ origin.head?, ¬ (!isPathStart b) = true := fun b hb => by
    simpa [isPathStart_iff] using horigin b hb
  simp only [dropAuthority, find?_scheme hscheme.1, if_neg (Nat.not_lt.2 hfree), hdrop]
  exact Bytes.dropWhile_append_of_head (pathFree_iff.1 hauthority) hhead

/-- What stands in front of the first `://` is no scheme if a path starts there. -/
theorem dropAuthority_plain (h : ∀ scheme rest, PathFree scheme → text ≠ scheme ++ "://" ++ rest) :
    dropAuthority text = text := by
  rw [dropAuthority]
  split
  · rfl
  · next i hi =>
    split
    · rfl
    · next hlength =>
      have hfree : PathFree (text.take i) := by
        refine pathFree_iff.2 fun b hb => ?_
        obtain ⟨tail, htail⟩ := List.takeWhile_prefix (p := fun b => !isPathStart b) (l := text)
        rw [← htail, List.take_append_of_le_length (Nat.not_lt.1 hlength)] at hb
        exact List.mem_takeWhile_imp (p := fun b => !isPathStart b) (List.mem_of_mem_take hb)
      exact absurd (Bytes.eq_of_find? hi) (h _ _ hfree)

theorem OriginOf.dropAuthority_eq {origin : Bytes} (h : OriginOf text origin) :
    dropAuthority text = origin := by
  cases h with
  | absolute hscheme hauthority horigin => exact dropAuthority_absolute hscheme hauthority horigin
  | plain h => exact dropAuthority_plain h

theorem exists_originOf (text : Bytes) : ∃ origin, OriginOf text origin := by
  by_cases h : ∃ scheme rest, PathFree scheme ∧ text = scheme ++ "://" ++ rest
  · obtain ⟨scheme, rest, hscheme, rfl⟩ := h
    have hauthority : PathFree (rest.takeWhile fun b => !isPathStart b) :=
      pathFree_iff.2 fun b hb => List.mem_takeWhile_imp (p := fun b => !isPathStart b) hb
    have horigin : ∀ b ∈ (rest.dropWhile fun b => !isPathStart b).head?,
        b = Byte.slash ∨ b = Byte.question := by
      intro b hb
      simpa [isPathStart_iff] using Bytes.not_of_mem_head?_dropWhile hb
    have habsolute := OriginOf.absolute hscheme hauthority horigin
    rw [List.takeWhile_append_dropWhile] at habsolute
    exact ⟨_, habsolute⟩
  · exact ⟨text, .plain fun scheme rest hscheme heq => h ⟨scheme, rest, hscheme, heq⟩⟩

/-- A text that starts with a slash has no scheme, whatever stands in its path and query. -/
theorem originOf_of_slash (h : text.head? = some Byte.slash) : OriginOf text text := by
  refine .plain fun scheme rest hscheme heq => ?_
  rw [heq] at h
  cases scheme with
  | nil => exact absurd (Option.some.inj h) (by decide)
  | cons b scheme =>
    obtain rfl := Option.some.inj h
    exact hscheme.1 List.mem_cons_self

/-! ### Parameters -/

/-- The key and the value of a pair. -/
def pairOf (text : Bytes) : Bytes × Bytes :=
  ((text.break1 Byte.equals).1, (text.break1 Byte.equals).2.getD [])

theorem forall₂_cutAt_iff {texts : List Bytes} {pairs : List (Bytes × Bytes)} :
    List.Forall₂ (fun text pair => Bytes.CutAt Byte.equals text pair.1 pair.2) texts pairs ↔
      texts.map pairOf = pairs := by
  have hpair : (fun text pair => Bytes.CutAt Byte.equals text pair.1 pair.2) =
      fun text pair => pairOf text = pair := by
    funext text pair
    rw [Bytes.cutAt_iff, pairOf, Prod.ext_iff]
  rw [hpair, ← List.forall₂_map_left_iff, List.forall₂_eq_eq_eq]

/-- The parameters are the pairs of the query whose key is not empty. -/
theorem parseQuery_eq (query : Bytes) :
    parseQuery query =
      .ofList (((query.splitOn Byte.ampersand).map pairOf).filter (·.1 ≠ [])) := by
  rw [parseQuery, Table.ofList]
  generalize query.splitOn Byte.ampersand = texts
  generalize (Table.empty : Parameters) = table
  induction texts generalizing table with
  | nil => rfl
  | cons text texts ih =>
    rw [List.foldl_cons, ih, List.map_cons]
    rcases hpair : Bytes.break1 Byte.equals text with ⟨_ | ⟨b, key⟩, value⟩
    · rw [List.filter_cons_of_neg (by simp [pairOf, hpair])]
    · rw [List.filter_cons_of_pos (by simp [pairOf, hpair]), List.foldl_cons, pairOf, hpair]

theorem get?_ofNamed (pairs : List (Bytes × Bytes)) (key : Bytes) :
    (Table.ofList pairs : Parameters).get? key =
      (pairs.reverse.find? (·.1 = key)).map (·.2) := by
  rw [Table.get?_ofList]
  simp only [Std.LawfulEqCmp.compare_eq_iff_eq, eq_comm (a := key)]

/-! ### Readings -/

/-- There is a reading of each target. -/
theorem exists_reading (text : Bytes) : ∃ r : Reading, r.Of text := by
  obtain ⟨origin, horigin⟩ := exists_originOf text
  obtain ⟨path, query, hpath⟩ : ∃ path query, origin.CutAt Byte.question path query :=
    ⟨_, _, Bytes.cutAt_iff.2 ⟨rfl, rfl⟩⟩
  refine ⟨⟨origin, path, query, path.splitOn Byte.slash,
    (query.splitOn Byte.ampersand).map pairOf⟩, horigin, hpath, Bytes.piecesOf_iff.2 rfl, ?_⟩
  exact ⟨_, Bytes.piecesOf_iff.2 rfl, forall₂_cutAt_iff.2 rfl⟩

namespace Reading

variable {r : Reading}

/-- What parsing comes to, in terms of the reading. -/
theorem Of.parse_eq (h : r.Of text) :
    parse text =
      if r.path.head? = some Byte.slash then
        match r.segments with
        | [] => .error (.emptyMapping text)
        | mapping :: segments => .ok { mapping, segments, parameters := .ofList r.named }
      else .error (.noPath text) := by
  obtain ⟨horigin, hpath, hpieces, texts, htexts, hpairs⟩ := h
  obtain ⟨hfront, hback⟩ := Bytes.cutAt_iff.1 hpath
  have hparameters : parseQuery r.query = .ofList r.named := by
    rw [parseQuery_eq, Bytes.piecesOf_iff.1 htexts, forall₂_cutAt_iff.1 hpairs, named]
  simp only [parse, horigin.dropAuthority_eq, hfront, hback, hparameters, segments,
    ← Bytes.piecesOf_iff.1 hpieces]
  rcases r.path with _ | ⟨b, rest⟩
  · rfl
  by_cases hb : b = Byte.slash
  · subst hb
    -- With a slash in front the first piece is empty, and it is left out.
    have hpieces' : (Byte.slash :: rest).splitOn Byte.slash = [] :: rest.splitOn Byte.slash := by
      rw [List.splitOn_cons_eq_if_modifyHead, if_pos (beq_self_eq_true _)]
    have hfilter : (fun piece : Bytes => !piece.isEmpty) = fun piece => decide (piece ≠ []) := by
      funext piece
      cases piece <;> rfl
    rw [hpieces', List.filter_cons_of_neg (by simp), List.head?_cons, if_pos rfl, ← hfilter]
    rfl
  · rw [if_neg (by simpa using hb)]
    split
    · next heq => exact absurd (List.cons.inj heq).1 hb
    · rfl

/-- The target has the segments and the parameters of the reading. -/
structure Gives (r : Reading) (t : Target) : Prop where
  segments : t.mapping :: t.segments = r.segments
  get? : ∀ key, t.get? key = r.value? key

/-- A target with a path and a segment is parsed. -/
theorem Of.parse_eq_ok (h : r.Of text) (hpath : r.path.head? = some Byte.slash)
    (hne : r.segments ≠ []) : ∃ t, parse text = .ok t ∧ r.Gives t := by
  obtain ⟨mapping, segments, hsegments⟩ := List.exists_cons_of_ne_nil hne
  refine ⟨{ mapping, segments, parameters := .ofList r.named }, ?_, hsegments.symm,
    get?_ofNamed r.named⟩
  rw [h.parse_eq, if_pos hpath, hsegments]

theorem Of.parse_eq_emptyMapping (h : r.Of text) (hpath : r.path.head? = some Byte.slash)
    (hnil : r.segments = []) : parse text = .error (.emptyMapping text) := by
  rw [h.parse_eq, if_pos hpath, hnil]

theorem Of.parse_eq_noPath (h : r.Of text) (hpath : r.path.head? ≠ some Byte.slash) :
    parse text = .error (.noPath text) := by
  rw [h.parse_eq, if_neg hpath]

/-- What is parsed has the segments and the parameters of the reading. -/
theorem Of.gives_of_parse {t : Target} (h : r.Of text) (ht : parse text = .ok t) : r.Gives t := by
  have hpath : r.path.head? = some Byte.slash := by
    by_contra hpath
    rw [h.parse_eq_noPath hpath] at ht
    cases ht
  have hne : r.segments ≠ [] := fun hnil => by
    rw [h.parse_eq_emptyMapping hpath hnil] at ht
    cases ht
  obtain ⟨t', hparse, hgives⟩ := h.parse_eq_ok hpath hne
  obtain rfl := Except.ok.inj (hparse.symm.trans ht)
  exact hgives

end Reading

/-! ### Writing -/

/-- A target with one choice of how it is written. -/
structure WrittenTarget where
  /-- A scheme and an authority. -/
  site : Option (Bytes × Bytes) := none
  /-- The segments, each with the number of slashes more than one in front of it. -/
  segments : List (Nat × Bytes)
  /-- The number of slashes behind the last segment. -/
  slashes : Nat := 0
  /-- Keys, and values where there is a `=`. -/
  query : Option (List (Bytes × Option Bytes)) := none

namespace WrittenTarget

def siteText (w : WrittenTarget) : Bytes :=
  match w.site with
  | none => []
  | some (scheme, authority) => scheme ++ "://" ++ authority

/-- Segments with slashes in front of them, and slashes behind the last one. -/
def slashed (segments : List (Nat × Bytes)) (slashes : Nat) : Bytes :=
  segments.flatMap (fun s => List.replicate (s.1 + 1) Byte.slash ++ s.2) ++
    List.replicate slashes Byte.slash

def pairText (pair : Bytes × Option Bytes) : Bytes :=
  match pair.2 with
  | none => pair.1
  | some value => pair.1 ++ Byte.equals :: value

def queryText (pairs : List (Bytes × Option Bytes)) : Bytes :=
  [Byte.ampersand].intercalate (pairs.map pairText)

/-- The path and the query. -/
def origin (w : WrittenTarget) : Bytes :=
  slashed w.segments w.slashes ++
    match w.query with
    | none => []
    | some pairs => Byte.question :: queryText pairs

def encode (w : WrittenTarget) : Bytes := w.siteText ++ w.origin

/-- Keys and values; a key without a value has the empty one. -/
def pairs (w : WrittenTarget) : List (Bytes × Bytes) :=
  (w.query.getD []).map fun pair => (pair.1, pair.2.getD [])

structure Valid (w : WrittenTarget) : Prop where
  site : ∀ site ∈ w.site, PathFree site.1 ∧ PathFree site.2
  segments_ne_nil : w.segments ≠ []
  segments : ∀ s ∈ w.segments, s.2 ≠ [] ∧ PathFree s.2
  keys : ∀ pair ∈ w.pairs, pair.1 ≠ [] ∧ Byte.ampersand ∉ pair.1 ∧ Byte.equals ∉ pair.1
  values : ∀ pair ∈ w.pairs, Byte.ampersand ∉ pair.2

end WrittenTarget

/-- The pieces of a path that are not empty. -/
def segmentsOf (path : Bytes) : List Bytes := (path.splitOn Byte.slash).filter (· ≠ [])

theorem segmentsOf_nil : segmentsOf [] = [] := rfl

theorem segmentsOf_slash (path : Bytes) : segmentsOf (Byte.slash :: path) = segmentsOf path := by
  rw [segmentsOf, List.splitOn_cons_eq_if_modifyHead, if_pos (beq_self_eq_true _),
    List.filter_cons_of_neg (by simp)]
  rfl

theorem segmentsOf_slashes (n : Nat) (path : Bytes) :
    segmentsOf (List.replicate n Byte.slash ++ path) = segmentsOf path := by
  induction n with
  | zero => rfl
  | succ n ih => rw [List.replicate_succ, List.cons_append, segmentsOf_slash, ih]

theorem segmentsOf_segment {s : Bytes} (hne : s ≠ []) (hs : Byte.slash ∉ s) :
    segmentsOf s = [s] := by
  have hsplit := List.splitOn_intercalate Byte.slash (List.forall_mem_singleton.2 hs)
    (List.cons_ne_nil s [])
  rw [List.intercalate_singleton] at hsplit
  rw [segmentsOf, hsplit, List.filter_cons_of_pos (by simpa using hne)]
  rfl

/-- A segment ends where a slash follows. -/
theorem segmentsOf_append (path : Bytes) {rest : Bytes} (h : ∀ b ∈ rest.head?, b = Byte.slash) :
    segmentsOf (path ++ rest) = segmentsOf path ++ segmentsOf rest := by
  cases rest with
  | nil => rw [List.append_nil, segmentsOf_nil, List.append_nil]
  | cons b rest =>
    obtain rfl := h b rfl
    rw [segmentsOf_slash, segmentsOf, List.splitOn_append_cons_self, List.filter_append]
    rfl

namespace WrittenTarget

variable {w : WrittenTarget}

/-- A path starts with a slash, if there is anything in it. -/
theorem head?_slashed (segments : List (Nat × Bytes)) (slashes : Nat) :
    ∀ b ∈ (slashed segments slashes).head?, b = Byte.slash := by
  intro b hb
  rcases segments with _ | ⟨⟨n, s⟩, segments⟩
  · cases slashes with
    | zero => cases hb
    | succ n => exact (Option.some.inj hb).symm
  · exact (Option.some.inj hb).symm

theorem question_not_mem_slashed {segments : List (Nat × Bytes)}
    (h : ∀ s ∈ segments, s.2 ≠ [] ∧ PathFree s.2) (slashes : Nat) :
    Byte.question ∉ slashed segments slashes := by
  intro hmem
  rcases List.mem_append.1 hmem with hmem | hmem
  · obtain ⟨s, hs, hmem⟩ := List.mem_flatMap.1 hmem
    rcases List.mem_append.1 hmem with hmem | hmem
    · exact absurd (List.eq_of_mem_replicate hmem) (by decide)
    · exact (h s hs).2.2 hmem
  · exact absurd (List.eq_of_mem_replicate hmem) (by decide)

/-- The segments of a path are got back. -/
theorem segmentsOf_slashed {segments : List (Nat × Bytes)}
    (h : ∀ s ∈ segments, s.2 ≠ [] ∧ PathFree s.2) (slashes : Nat) :
    segmentsOf (slashed segments slashes) = segments.map (·.2) := by
  induction segments with
  | nil =>
    rw [slashed, List.flatMap_nil, List.nil_append, ← List.append_nil (List.replicate _ _),
      segmentsOf_slashes]
    rfl
  | cons s segments ih =>
    rw [List.forall_mem_cons] at h
    have hcons : slashed (s :: segments) slashes =
        List.replicate (s.1 + 1) Byte.slash ++ (s.2 ++ slashed segments slashes) := by
      simp only [slashed, List.flatMap_cons, List.append_assoc]
    rw [hcons, segmentsOf_slashes, segmentsOf_append _ (head?_slashed segments slashes),
      segmentsOf_segment h.1.1 h.1.2.1, ih h.2]
    rfl

theorem pairOf_pairText {pair : Bytes × Option Bytes} (h : Byte.equals ∉ pair.1) :
    pairOf (pairText pair) = (pair.1, pair.2.getD []) := by
  rcases pair with ⟨key, _ | value⟩
  · rw [pairText, pairOf, Bytes.break1_of_not_mem h]
  · rw [pairText, pairOf, Bytes.break1_append h]

theorem ampersand_not_mem_pairText {pair : Bytes × Option Bytes} (hkey : Byte.ampersand ∉ pair.1)
    (hvalue : Byte.ampersand ∉ pair.2.getD []) : Byte.ampersand ∉ pairText pair := by
  rcases pair with ⟨key, _ | value⟩
  · exact hkey
  · rw [pairText, List.mem_append, List.mem_cons, not_or, not_or]
    exact ⟨hkey, by decide, hvalue⟩

/-- The pairs of a query are got back. -/
theorem Valid.named_queryText (h : w.Valid) :
    (((queryText (w.query.getD [])).splitOn Byte.ampersand).map pairOf).filter (·.1 ≠ []) =
      w.pairs := by
  have hkeys := h.keys
  have hvalues := h.values
  rw [pairs, List.forall_mem_map] at hkeys hvalues
  rw [pairs]
  generalize w.query.getD [] = written at hkeys hvalues ⊢
  by_cases hnil : written = []
  · subst hnil
    rfl
  -- No pair has an ampersand, so the pieces are the pairs.
  have hfree : ∀ text ∈ written.map pairText, Byte.ampersand ∉ text :=
    List.forall_mem_map.2 fun pair hpair =>
      ampersand_not_mem_pairText (hkeys pair hpair).2.1 (hvalues pair hpair)
  have hpairs : (written.map pairText).map pairOf =
      written.map fun pair => (pair.1, pair.2.getD []) := by
    rw [List.map_map]
    exact List.map_congr_left fun pair hpair => pairOf_pairText (hkeys pair hpair).2.2
  rw [queryText, List.splitOn_intercalate _ hfree (by simpa using hnil), hpairs,
    List.filter_eq_self]
  exact List.forall_mem_map.2 fun pair hpair => by simpa using (hkeys pair hpair).1

theorem Valid.head?_origin (h : w.Valid) : w.origin.head? = some Byte.slash := by
  obtain ⟨s, segments, hsegments⟩ := List.exists_cons_of_ne_nil h.segments_ne_nil
  rw [origin, hsegments]
  rfl

theorem Valid.originOf (h : w.Valid) : OriginOf w.encode w.origin := by
  have hhead := h.head?_origin
  rw [encode, siteText]
  split
  · exact originOf_of_slash hhead
  · next scheme authority hsite =>
    obtain ⟨hscheme, hauthority⟩ := h.site (scheme, authority) hsite
    rw [List.append_assoc]
    refine .absolute hscheme hauthority fun b hb => .inl ?_
    rw [hhead] at hb
    exact (Option.some.inj hb).symm

/-- The reading of what was written. -/
theorem Valid.exists_reading (h : w.Valid) : ∃ r : Reading, r.Of w.encode ∧
    r.path.head? = some Byte.slash ∧ r.segments = w.segments.map (·.2) ∧ r.named = w.pairs := by
  have hpath : w.origin.CutAt Byte.question (slashed w.segments w.slashes)
      (queryText (w.query.getD [])) := by
    refine ⟨question_not_mem_slashed h.segments _, ?_⟩
    rw [origin]
    split
    · next hquery => exact .inr ⟨List.append_nil _, by rw [hquery]; rfl⟩
    · next pairs hquery => exact .inl (by rw [hquery]; rfl)
  refine ⟨⟨w.origin, slashed w.segments w.slashes, queryText (w.query.getD []), _, _⟩,
    ⟨h.originOf, hpath, Bytes.piecesOf_iff.2 rfl, _, Bytes.piecesOf_iff.2 rfl,
      forall₂_cutAt_iff.2 rfl⟩, ?_, segmentsOf_slashed h.segments _, h.named_queryText⟩
  obtain ⟨s, segments, hsegments⟩ := List.exists_cons_of_ne_nil h.segments_ne_nil
  rw [hsegments]
  rfl

/-- What was written is parsed, and each key has the value that its reading gives it. -/
theorem Valid.exists_parse (h : w.Valid) : ∃ (r : Reading) (t : Target), r.named = w.pairs ∧
    parse w.encode = .ok t ∧ t.mapping :: t.segments = w.segments.map (·.2) ∧
      ∀ key, t.get? key = r.value? key := by
  obtain ⟨r, hr, hpath, hsegments, hnamed⟩ := h.exists_reading
  have hne : r.segments ≠ [] := by
    rw [hsegments]
    exact mt List.map_eq_nil_iff.1 h.segments_ne_nil
  obtain ⟨t, hparse, ht⟩ := hr.parse_eq_ok hpath hne
  exact ⟨r, t, hnamed, hparse, ht.segments.trans hsegments, ht.get?⟩

end WrittenTarget

/-- Every target has a reading, and what parsing it comes to goes by its reading. It fails
    just if the path does not start with a slash, or has no segment that is not empty; its
    failure is that of a malformed request, and says which of the two it is. Otherwise the
    mapping path and the segments behind it are the segments that are not empty, in their
    order, and each key that is not empty has the value of the last pair with it.

    So the segments and the parameters of a written target are read back, however it is
    written. -/
theorem parse_exact :
    (∀ text, (∃ r : Reading, r.Of text) ∧ ∀ r : Reading, r.Of text →
      ((∃ reason, (parse text).mapError Fault.error = .error (.malformed reason)) ↔
        r.path.head? ≠ some Byte.slash ∨ r.segments = []) ∧
      (parse text = .error (.noPath text) ↔ r.path.head? ≠ some Byte.slash) ∧
      (parse text = .error (.emptyMapping text) ↔
        r.path.head? = some Byte.slash ∧ r.segments = []) ∧
      (r.path.head? = some Byte.slash ∧ r.segments ≠ [] → ∃ t, parse text = .ok t ∧
        t.mapping :: t.segments = r.segments ∧ (∀ key, t.get? key = r.value? key) ∧
        t.parameters.entries.Pairwise fun a b => compare a.1 b.1 = .lt)) ∧
    ∀ w : WrittenTarget, w.Valid → ∃ t, parse w.encode = .ok t ∧
      t.mapping :: t.segments = w.segments.map (·.2) ∧
      ∀ key, t.get? key = (w.pairs.reverse.find? (·.1 = key)).map (·.2) := by
  constructor
  · intro text
    refine ⟨exists_reading text, fun r hr => ?_⟩
    by_cases hpath : r.path.head? = some Byte.slash
    · by_cases hnil : r.segments = []
      · have hparse := hr.parse_eq_emptyMapping hpath hnil
        simp [hparse, hpath, hnil, Except.mapError, Fault.error]
      · obtain ⟨t, hparse, ht⟩ := hr.parse_eq_ok hpath hnil
        rw [hparse]
        refine ⟨iff_of_false nofun fun h => h.elim (absurd hpath) hnil,
          iff_of_false nofun (absurd hpath), iff_of_false nofun fun h => hnil h.2,
          fun _ => ⟨t, rfl, ht.segments, ht.get?, t.parameters.sorted⟩⟩
    · have hparse := hr.parse_eq_noPath hpath
      simp [hparse, hpath, Except.mapError, Fault.error]
  · intro w hw
    obtain ⟨r, t, hnamed, hparse, hsegments, hget⟩ := hw.exists_parse
    refine ⟨t, hparse, hsegments, fun key => ?_⟩
    rw [hget, Reading.value?, hnamed]

/-- A target with a `://` in its query, an empty piece and an empty key. -/
def plainReading : Reading where
  origin := "//a?b=c://d&=e"
  path := "//a"
  query := "b=c://d&=e"
  pieces := ["", "", "a"]
  pairs := [("b", "c://d"), ("", "e")]

/-- A target with a site, a key twice and a key without a value. -/
def writtenAbsolute : WrittenTarget where
  site := some ("http", "h:1")
  segments := [(1, "a"), (0, "b")]
  slashes := 1
  query := some [("k", some "1=?"), ("v", none), ("k", some "2")]

theorem parse_exact_absolute :
    (plainReading.Of "//a?b=c://d&=e" ∧ ∃ t, parse "//a?b=c://d&=e" = .ok t ∧
      t.mapping :: t.segments = ["a"] ∧ t.get? "b" = some (ascii "c://d")) ∧
    writtenAbsolute.Valid ∧ writtenAbsolute.encode = "http://h:1//a/b/?k=1=?&v&k=2" ∧
      ∃ t, parse writtenAbsolute.encode = .ok t ∧ t.mapping :: t.segments = ["a", "b"] ∧
        t.get? "k" = some (ascii "2") ∧ t.get? "v" = some [] := by
  have hreading : plainReading.Of "//a?b=c://d&=e" := by
    refine ⟨originOf_of_slash rfl, ⟨by decide, .inl rfl⟩, ⟨by decide, by decide, rfl⟩,
      ["b=c://d", "=e"], ⟨by decide, by decide, rfl⟩, ?_⟩
    exact .cons ⟨by decide, .inl rfl⟩ (.cons ⟨by decide, .inl rfl⟩ .nil)
  have hvalid : writtenAbsolute.Valid :=
    ⟨by decide, by decide, by decide, by decide, by decide⟩
  obtain ⟨t, hparse, hsegments, hget, -⟩ :=
    ((parse_exact.1 "//a?b=c://d&=e").2 plainReading hreading).2.2.2 ⟨rfl, by decide⟩
  obtain ⟨t', hparse', hsegments', hget'⟩ := parse_exact.2 writtenAbsolute hvalid
  exact ⟨⟨hreading, t, hparse, hsegments, hget "b"⟩, hvalid, rfl, t', hparse', hsegments',
    hget' "k", hget' "v"⟩

end PageServer.Http.Target
