import PageServer.Proofs.Bytes
import Mathlib.Data.List.GetD
import Mathlib.Data.List.TakeWhile

/-!
# Parts of byte strings

How a text that was put together comes apart again: at the first occurrence of a
byte (`Bytes.break1_eq_some_iff`, `Bytes.cutAt_iff`) or at all of them (`Bytes.piecesOf_iff`),
and at the bytes of a class around it (`Bytes.trimBy_append`, `Bytes.exists_trimBy`), such
as white space (`Bytes.trim_append`, `Bytes.exists_trim`). Texts joined with
a separator are no shorter than their parts are (`Bytes.length_le_join`).
Of a text written over another one byte by byte is told (`Bytes.getD_overwrite`).
A text is within one line if it has no line end (`Bytes.OneLine`), and so are texts put
together that do not make up one between them (`Bytes.OneLine.append`). Such texts with
an end behind each (`Bytes.ended`) are lines that can be told apart again
(`Bytes.lines_append`).

Names are the same up to the case of letters, and the order of names goes by that too
(`Bytes.compareFolded_eq_iff`).
-/

namespace PageServer.Bytes

variable {a b s t : Bytes} {sep : Byte}

/-! ### Letter case -/

theorem sameFolded_iff : sameFolded a b ↔ lower a = lower b := beq_iff_eq

theorem sameFolded_comm : sameFolded a b ↔ sameFolded b a := by
  rw [sameFolded_iff, sameFolded_iff, eq_comm]

/-- Letter case is lost whichever way it is changed. -/
theorem upper_lower (s : Bytes) : s.lower.upper = s.upper := by
  rw [upper, lower, List.map_map]
  refine List.map_congr_left fun b _ => ?_
  simp only [Function.comp_apply, Byte.upper, Byte.lower, Byte.isUpper, Byte.isLower,
    Bool.and_eq_true, decide_eq_true_eq, UInt8.le_iff_toNat_le, UInt8.reduceToNat]
  split_ifs <;> simp only [← UInt8.toNat_inj, UInt8.toNat_add, UInt8.toNat_sub,
    UInt8.reduceToNat] at * <;> omega

theorem lower_upper (s : Bytes) : s.upper.lower = s.lower := by
  rw [upper, lower, List.map_map]
  refine List.map_congr_left fun b _ => ?_
  simp only [Function.comp_apply, Byte.upper, Byte.lower, Byte.isUpper, Byte.isLower,
    Bool.and_eq_true, decide_eq_true_eq, UInt8.le_iff_toNat_le, UInt8.reduceToNat]
  split_ifs <;> simp only [← UInt8.toNat_inj, UInt8.toNat_add, UInt8.toNat_sub,
    UInt8.reduceToNat] at * <;> omega

/-- Capital letters tell as much as small ones. -/
theorem upper_eq_upper_iff : a.upper = b.upper ↔ sameFolded a b := by
  rw [sameFolded_iff]
  exact ⟨fun h => by rw [← lower_upper, h, lower_upper],
    fun h => by rw [← upper_lower, h, upper_lower]⟩

theorem compareFolded_eq_iff : compareFolded a b = .eq ↔ sameFolded a b := by
  rw [compareFolded, sameFolded_iff, Std.LawfulEqCmp.compare_eq_iff_eq]

/-- The order of byte strings goes by the first byte in which they differ. -/
theorem compare_eq_lt_iff : compare a b = .lt ↔ a < b := by
  induction a generalizing b with
  | nil =>
    cases b with
    | nil => exact iff_of_false (by simp) (List.lt_irrefl [])
    | cons c b => exact iff_of_true rfl (List.nil_lt_cons c b)
  | cons c a ih =>
    cases b with
    | nil => exact iff_of_false Ordering.noConfusion (List.not_lt_nil _)
    | cons c' b =>
      rw [List.compare_cons_cons, Ordering.then_eq_lt, Std.compare_eq_lt,
        Std.LawfulEqCmp.compare_eq_iff_eq, ih, List.cons_lt_cons_iff]

/-! ### Parts -/

theorem break1_append (h : sep ∉ s) (t : Bytes) : (s ++ sep :: t).break1 sep = (s, some t) := by
  have hs : ∀ b ∈ s, (b != sep) = true := fun b hb => bne_iff_ne.2 fun heq => h (heq ▸ hb)
  have hdrop : (s ++ sep :: t).dropWhile (· != sep) = sep :: t := by
    rw [List.dropWhile_append_of_pos hs, List.dropWhile_cons_of_neg (by simp)]
  have htake : (s ++ sep :: t).takeWhile (· != sep) = s := by
    rw [List.takeWhile_append_of_pos hs, List.takeWhile_cons_of_neg (by simp), List.append_nil]
  rw [break1, hdrop, htake]

theorem break1_of_not_mem (h : sep ∉ s) : s.break1 sep = (s, none) := by
  have hdrop : s.dropWhile (· != sep) = [] :=
    List.dropWhile_eq_nil_iff.2 fun b hb => bne_iff_ne.2 fun heq => h (heq ▸ hb)
  rw [break1, hdrop]

theorem break1_eq_some_iff : s.break1 sep = (a, some b) ↔ sep ∉ a ∧ s = a ++ sep :: b := by
  constructor
  · intro h
    by_cases hmem : sep ∈ s
    · obtain ⟨front, back, rfl, hfront⟩ := List.eq_append_cons_of_mem hmem
      rw [break1_append hfront] at h
      cases h
      exact ⟨hfront, rfl⟩
    · rw [break1_of_not_mem hmem] at h
      cases h
  · rintro ⟨ha, rfl⟩
    exact break1_append ha b

/-- The text is cut into what stands in front of its first `sep` and what stands behind
    that. A text without `sep` is all front. -/
def CutAt (sep : Byte) (s front back : Bytes) : Prop :=
  sep ∉ front ∧ (s = front ++ sep :: back ∨ s = front ∧ back = [])

/-- There is one way to cut a text. -/
theorem cutAt_iff : CutAt sep s a b ↔ (s.break1 sep).1 = a ∧ (s.break1 sep).2.getD [] = b := by
  constructor
  · rintro ⟨ha, rfl | ⟨rfl, rfl⟩⟩
    · rw [break1_append ha]
      exact ⟨rfl, rfl⟩
    · rw [break1_of_not_mem ha]
      exact ⟨rfl, rfl⟩
  · rintro ⟨rfl, rfl⟩
    by_cases h : sep ∈ s
    · obtain ⟨front, back, rfl, hfront⟩ := List.eq_append_cons_of_mem h
      rw [break1_append hfront]
      exact ⟨hfront, .inl rfl⟩
    · rw [break1_of_not_mem h]
      exact ⟨h, .inr ⟨rfl, rfl⟩⟩

/-- The text consists of these pieces, at least one, with a `sep` between neighbours and
    none inside. -/
def PiecesOf (sep : Byte) (s : Bytes) (pieces : List Bytes) : Prop :=
  pieces ≠ [] ∧ (∀ p ∈ pieces, sep ∉ p) ∧ [sep].intercalate pieces = s

theorem not_mem_splitOn (sep : Byte) (s : Bytes) : ∀ p ∈ s.splitOn sep, sep ∉ p := by
  induction s with
  | nil => simp
  | cons c s ih =>
    obtain ⟨first, rest, hsplit⟩ := List.exists_cons_of_ne_nil (List.splitOn_ne_nil sep s)
    rw [List.splitOn_cons_eq_if_modifyHead, hsplit]
    rw [hsplit, List.forall_mem_cons] at ih
    split
    · exact List.forall_mem_cons.2 ⟨List.not_mem_nil, List.forall_mem_cons.2 ih⟩
    · next hc =>
      refine List.forall_mem_cons.2 ⟨fun hmem => ?_, ih.2⟩
      rcases List.mem_cons.1 hmem with rfl | hmem
      · exact hc (beq_self_eq_true _)
      · exact ih.1 hmem

/-- There is one way to take a text to pieces. -/
theorem piecesOf_iff {pieces : List Bytes} : PiecesOf sep s pieces ↔ s.splitOn sep = pieces := by
  constructor
  · rintro ⟨hne, hfree, rfl⟩
    exact List.splitOn_intercalate sep hfree hne
  · rintro rfl
    exact ⟨List.splitOn_ne_nil _ _, not_mem_splitOn sep s, List.intercalate_splitOn sep⟩

theorem splitOn_of_not_mem (h : sep ∉ s) : s.splitOn sep = [s] :=
  piecesOf_iff.1 ⟨List.cons_ne_nil _ _, by simpa using h, List.intercalate_singleton⟩

/-- The first piece of a text. -/
theorem splitOn_append (h : sep ∉ s) (t : Bytes) :
    (s ++ sep :: t).splitOn sep = s :: t.splitOn sep := by
  obtain ⟨hne, hfree, hjoin⟩ := piecesOf_iff.2 (rfl : t.splitOn sep = t.splitOn sep)
  refine piecesOf_iff.1 ⟨List.cons_ne_nil _ _, List.forall_mem_cons.2 ⟨h, hfree⟩, ?_⟩
  rw [List.intercalate_cons_of_ne_nil hne, hjoin, List.append_assoc]
  rfl

/-- The part in front is all that comes before the byte. -/
theorem break1_fst (sep : Byte) (s : Bytes) : (s.break1 sep).1 = s.takeWhile (· != sep) := by
  rw [break1]
  split
  · next hdrop =>
    exact (List.takeWhile_eq_self_iff.2 (List.dropWhile_eq_nil_iff.1 hdrop)).symm
  · rfl

/-- The first byte and the last one, if there are any, are not white space. -/
def Trimmed (s : Bytes) : Prop :=
  (∀ b ∈ s.head?, ¬ b.isSpace) ∧ ∀ b ∈ s.getLast?, ¬ b.isSpace

instance (s : Bytes) : Decidable s.Trimmed :=
  inferInstanceAs (Decidable ((∀ b ∈ s.head?, ¬ b.isSpace) ∧ ∀ b ∈ s.getLast?, ¬ b.isSpace))

theorem dropWhile_append_of_head {p : Byte → Bool} (ha : ∀ b ∈ a, p b) (hs : ∀ b ∈ s.head?, ¬ p b) :
    (a ++ s).dropWhile p = s := by
  rw [List.dropWhile_append_of_pos ha]
  cases s with
  | nil => rfl
  | cons b s => exact List.dropWhile_cons_of_neg (hs b rfl)

/-- Bytes of a class around a text come off, if the text neither starts nor ends with
    one. -/
theorem trimBy_append {p : Byte → Bool} (hhead : ∀ c ∈ s.head?, ¬ p c)
    (hlast : ∀ c ∈ s.getLast?, ¬ p c) (ha : ∀ c ∈ a, p c) (hb : ∀ c ∈ b, p c) :
    (a ++ s ++ b).trimBy p = s := by
  by_cases hnil : s = []
  · have hall : (a ++ s ++ b).dropWhile p = [] := by
      rw [hnil, List.append_nil]
      exact List.dropWhile_eq_nil_iff.2 (List.forall_mem_append.2 ⟨ha, hb⟩)
    rw [trimBy, hall, hnil]
    rfl
  · have hfirst : (s ++ b).head? = s.head? := List.head?_append_of_ne_nil s hnil
    have hfront : (a ++ s ++ b).dropWhile p = s ++ b := by
      rw [List.append_assoc]
      exact dropWhile_append_of_head ha (by rw [hfirst]; exact hhead)
    have hback : (b.reverse ++ s.reverse).dropWhile p = s.reverse :=
      dropWhile_append_of_head (by simpa using hb) (by rw [List.head?_reverse]; exact hlast)
    rw [trimBy, hfront, List.reverse_append, hback, List.reverse_reverse]

/-- White space around a text comes off. -/
theorem trim_append (hs : s.Trimmed) (ha : ∀ c ∈ a, c.isSpace) (hb : ∀ c ∈ b, c.isSpace) :
    (a ++ s ++ b).trim = s :=
  trimBy_append hs.1 hs.2 ha hb

theorem Trimmed.trim_eq (hs : s.Trimmed) : s.trim = s := by
  simpa using trim_append (a := []) (b := []) hs (by simp) (by simp)

theorem not_of_mem_head?_dropWhile {p : Byte → Bool} {c : Byte}
    (h : c ∈ (s.dropWhile p).head?) : ¬ p c := by
  have hnot := List.head?_dropWhile_not p s
  rw [Option.mem_def.1 h] at hnot
  simpa using hnot

/-- What comes off a text are bytes of the class around it, and all of them. -/
theorem exists_trimBy (p : Byte → Bool) (s : Bytes) :
    ∃ a b : Bytes, s = a ++ s.trimBy p ++ b ∧ (∀ c ∈ (s.trimBy p).head?, ¬ p c) ∧
      (∀ c ∈ (s.trimBy p).getLast?, ¬ p c) ∧ ∀ c ∈ a ++ b, p c := by
  let kept := s.dropWhile p
  let back := (kept.reverse.takeWhile p).reverse
  have hfront : s = s.takeWhile p ++ kept := List.takeWhile_append_dropWhile.symm
  have hback : kept = s.trimBy p ++ back := by
    rw [trimBy, ← List.reverse_append, List.takeWhile_append_dropWhile, List.reverse_reverse]
  refine ⟨s.takeWhile p, back, ?_, ?_, ?_, ?_⟩
  · rw [List.append_assoc, ← hback]
    exact hfront
  · intro c hc
    refine not_of_mem_head?_dropWhile (s := s) ?_
    -- What is left starts as what was left in front.
    change c ∈ kept.head?
    rw [hback]
    cases htrim : s.trimBy p with
    | nil => rw [htrim] at hc; cases hc
    | cons b t => rwa [htrim] at hc
  · intro c hc
    rw [trimBy, List.getLast?_reverse] at hc
    exact not_of_mem_head?_dropWhile hc
  · intro c hc
    rcases List.mem_append.1 hc with hc | hc
    · exact List.mem_takeWhile_imp hc
    · exact List.mem_takeWhile_imp (List.mem_reverse.1 hc)

/-- What comes off a text is white space around it. -/
theorem exists_trim (s : Bytes) :
    ∃ a b : Bytes, s = a ++ s.trim ++ b ∧ s.trim.Trimmed ∧ ∀ c ∈ a ++ b, c.isSpace := by
  obtain ⟨a, b, hs, hhead, hlast, hspace⟩ := exists_trimBy Byte.isSpace s
  exact ⟨a, b, hs, ⟨hhead, hlast⟩, hspace⟩

/-- White space is all that comes off. -/
theorem mem_trim {c : Byte} (hc : ¬ c.isSpace) (h : c ∈ s) : c ∈ s.trim := by
  have hkept : ∀ t : Bytes, c ∈ t → c ∈ t.dropWhile Byte.isSpace := fun t ht => by
    rw [← List.takeWhile_append_dropWhile (p := Byte.isSpace) (l := t), List.mem_append] at ht
    exact ht.resolve_left fun htake => hc (List.mem_takeWhile_imp htake)
  rw [trim, trimBy, List.mem_reverse]
  exact hkept _ (List.mem_reverse.2 (hkept s h))

/-! ### Texts joined -/

theorem join_singleton (sep p : Bytes) : join sep [p] = p := List.intercalate_singleton

theorem join_cons_cons (sep p q : Bytes) (parts : List Bytes) :
    join sep (p :: q :: parts) = p ++ (sep ++ join sep (q :: parts)) := by
  rw [join, List.intercalate_cons_cons, List.append_assoc]
  rfl

/-- The first part stands in front. -/
theorem exists_join_cons (sep p : Bytes) (parts : List Bytes) :
    ∃ more, join sep (p :: parts) = p ++ more := by
  cases parts with
  | nil => exact ⟨[], by rw [join_singleton, List.append_nil]⟩
  | cons q parts => exact ⟨_, join_cons_cons sep p q parts⟩

theorem length_le_join (sep : Bytes) {p : Bytes} {parts : List Bytes} (h : p ∈ parts) :
    p.length ≤ (join sep parts).length := by
  induction parts with
  | nil => cases h
  | cons q parts ih =>
    cases parts with
    | nil => rw [List.mem_singleton.1 h, join_singleton]
    | cons q' parts =>
      rw [join_cons_cons, List.length_append, List.length_append]
      rcases List.mem_cons.1 h with rfl | h
      · omega
      · have := ih h
        omega

/-- Each part but the last one has a separator behind it. -/
theorem length_le_length_join {sep : Bytes} (hsep : sep ≠ []) (parts : List Bytes) :
    parts.length ≤ (join sep parts).length + 1 := by
  have hpos := List.length_pos_of_ne_nil hsep
  induction parts with
  | nil => exact Nat.zero_le _
  | cons p parts ih =>
    cases parts with
    | nil => exact Nat.le_add_left 1 _
    | cons q parts =>
      rw [join_cons_cons, List.length_append, List.length_append, List.length_cons]
      omega

/-- A separator may as well stand partly in front of each part. -/
theorem append_join (sep front : Bytes) {parts : List Bytes} (h : parts ≠ []) :
    front ++ join (sep ++ front) parts = join sep (parts.map (front ++ ·)) := by
  induction parts with
  | nil => exact absurd rfl h
  | cons p parts ih =>
    cases parts with
    | nil => rw [List.map_singleton, join_singleton, join_singleton]
    | cons q parts =>
      rw [List.map_cons, List.map_cons, join_cons_cons, join_cons_cons, ← List.map_cons,
        ← ih (List.cons_ne_nil _ _)]
      simp only [List.append_assoc]

/-! ### Zero-terminated texts -/

theorem toNul_cons {c : Byte} (h : c ≠ 0) (s : Bytes) : toNul (c :: s) = c :: toNul s :=
  List.takeWhile_cons_of_pos (bne_iff_ne.2 h)

theorem toNul_of_not_mem {s : Bytes} (h : 0 ∉ s) : s.toNul = s :=
  List.takeWhile_eq_self_iff.2 fun _ hb => bne_iff_ne.2 fun hzero => h (hzero ▸ hb)

theorem not_mem_toNul (s : Bytes) : 0 ∉ s.toNul := fun h =>
  bne_iff_ne.1 (List.mem_takeWhile_imp (p := (· != 0)) h) rfl

theorem toNul_toNul (s : Bytes) : s.toNul.toNul = s.toNul := toNul_of_not_mem s.not_mem_toNul

/-- Nothing is seen of what stands behind a NUL byte. -/
theorem toNul_append (s t : Bytes) : (s ++ t).toNul = if 0 ∈ s then s.toNul else s ++ t.toNul := by
  induction s with
  | nil => rfl
  | cons b s ih =>
    by_cases hb : b = 0
    · subst hb
      rw [if_pos List.mem_cons_self]
      rfl
    · rw [List.cons_append, toNul_cons hb, toNul_cons hb, ih]
      have hmem : 0 ∈ b :: s ↔ 0 ∈ s := by
        rw [List.mem_cons, or_iff_right fun hzero => hb hzero.symm]
      simp only [hmem]
      split <;> rfl

theorem toNul_prefix (s : Bytes) : s.toNul <+: s := List.takeWhile_prefix _

/-! ### Strings written over -/

theorem length_overwrite (s : Bytes) (offset : Nat) (data : Bytes) :
    (s.overwrite offset data).length = max s.length (offset + data.length) := by
  simp only [overwrite, List.length_append, List.length_take, List.length_replicate,
    List.length_drop]
  omega

/-- What is in front of the bytes written over a string. -/
theorem length_overwrite_front (s : Bytes) (offset : Nat) :
    (s.take offset ++ List.replicate (offset - s.length) 0).length = offset := by
  rw [List.length_append, List.length_take, List.length_replicate]
  omega

theorem getD_overwrite_front (s : Bytes) {offset k : Nat} (h : k < offset) :
    (s.take offset ++ List.replicate (offset - s.length) 0).getD k 0 = s.getD k 0 := by
  by_cases hk : k < s.length
  · rw [List.getD_append _ _ _ _ (by rw [List.length_take]; omega), List.getD_eq_getElem?_getD,
      List.getElem?_take_of_lt h, ← List.getD_eq_getElem?_getD]
  · have hlength : (s.take offset).length ≤ k := by
      rw [List.length_take]
      omega
    rw [List.getD_append_right _ _ _ _ hlength, List.getD_eq_default _ _ (Nat.le_of_not_lt hk),
      List.getD_replicate _ (by rw [List.length_take]; omega)]

/-- The bytes of a string that was written over. Beyond the end of a string there
    are zeros, as there are between its end and what is written behind it. -/
theorem getD_overwrite (s : Bytes) (offset : Nat) (data : Bytes) (k : Nat) :
    (s.overwrite offset data).getD k 0 =
      if offset ≤ k ∧ k < offset + data.length then data.getD (k - offset) 0 else s.getD k 0 := by
  have hfront := length_overwrite_front s offset
  rw [overwrite, List.append_assoc _ data]
  by_cases hbefore : k < offset
  · rw [if_neg (by omega), List.getD_append _ _ _ _ (by omega), getD_overwrite_front s hbefore]
  rw [List.getD_append_right _ _ _ _ (by omega), hfront]
  by_cases hinside : k < offset + data.length
  · rw [if_pos (by omega), List.getD_append _ _ _ _ (by omega)]
  · rw [if_neg (by omega), List.getD_append_right _ _ _ _ (by omega)]
    simp only [List.getD_eq_getElem?_getD, List.getElem?_drop]
    congr 2
    omega

theorem drop_overwrite (s : Bytes) (offset : Nat) (data : Bytes) :
    (s.overwrite offset data).drop offset = data ++ s.drop (offset + data.length) := by
  have hfront := length_overwrite_front s offset
  rw [overwrite, List.append_assoc _ data, List.drop_append_of_le_length hfront.ge,
    List.drop_of_length_le hfront.le, List.nil_append]

/-- What is written from the end of a string on is appended to it. -/
theorem overwrite_length (s data : Bytes) : s.overwrite s.length data = s ++ data := by
  rw [overwrite, List.take_length, Nat.sub_self, List.replicate_zero, List.append_nil,
    List.drop_eq_nil_of_le (Nat.le_add_right _ _), List.append_nil]

/-! ### Lines -/

/-- The text is within one line: no line ends in it. -/
def OneLine (s : Bytes) : Prop := ¬ [13, 10] <:+: s

instance (s : Bytes) : Decidable s.OneLine := inferInstanceAs (Decidable (¬ [13, 10] <:+: s))

theorem oneLine_nil : OneLine [] := by decide

theorem oneLine_cons {c : Byte} :
    OneLine (c :: s) ↔ ¬ (c = 13 ∧ s.head? = some 10) ∧ s.OneLine := by
  have hstart : [13, 10] <+: c :: s ↔ c = 13 ∧ s.head? = some 10 := by
    cases s <;> simp [List.cons_prefix_cons, eq_comm]
  rw [OneLine, List.infix_cons_iff, hstart, not_or]
  rfl

theorem oneLine_of_not_mem (h : 13 ∉ s) : s.OneLine := fun hin => h (hin.subset (by simp))

/-- No line ends where two texts meet, unless the second starts with a line feed. -/
theorem OneLine.append (hs : s.OneLine) (ht : t.OneLine) (hhead : t.head? ≠ some 10) :
    (s ++ t).OneLine := by
  induction s with
  | nil => exact ht
  | cons c s ih =>
    obtain ⟨hc, hs⟩ := oneLine_cons.1 hs
    refine oneLine_cons.2 ⟨fun hend => ?_, ih hs⟩
    cases s with
    | nil => exact hhead hend.2
    | cons c' s => exact hc hend

theorem OneLine.append_cons {c : Byte} (hs : s.OneLine) (hc : c ≠ 13 ∧ c ≠ 10) (ht : t.OneLine) :
    (s ++ c :: t).OneLine :=
  hs.append (oneLine_cons.2 ⟨fun hend => hc.1 hend.1, ht⟩) fun hhead => hc.2 (Option.some.inj hhead)

/-- A text that is not empty does not start with a line end, unless it has one in it. -/
theorem OneLine.not_end_first (hs : s.OneLine) (hne : s ≠ []) (t : Bytes) :
    ¬ [13, 10] <+: s ++ 13 :: t := by
  cases s with
  | nil => exact absurd rfl hne
  | cons c s =>
    intro hprefix
    obtain ⟨hc, hprefix⟩ := List.cons_prefix_cons.1 hprefix
    cases s with
    | nil => exact absurd (List.cons_prefix_cons.1 hprefix).1 (by decide)
    | cons c' s =>
      have hc' := (List.cons_prefix_cons.1 hprefix).1
      exact (oneLine_cons.1 hs).1 ⟨hc.symm, congrArg some hc'.symm⟩

/-- There is no byte of a line end in the text. -/
def Unbroken (s : Bytes) : Prop := 13 ∉ s ∧ 10 ∉ s

instance (s : Bytes) : Decidable s.Unbroken := inferInstanceAs (Decidable (13 ∉ s ∧ 10 ∉ s))

theorem Unbroken.append (hs : s.Unbroken) (ht : t.Unbroken) : (s ++ t).Unbroken :=
  ⟨fun h => (List.mem_append.1 h).elim hs.1 ht.1, fun h => (List.mem_append.1 h).elim hs.2 ht.2⟩

theorem Unbroken.oneLine (h : s.Unbroken) : s.OneLine := oneLine_of_not_mem h.1

/-- The lines, each with its end. -/
def ended (lines : List Bytes) : Bytes := lines.flatMap (· ++ [13, 10])

theorem ended_cons (line : Bytes) (lines : List Bytes) :
    ended (line :: lines) = line ++ 13 :: 10 :: ended lines := by
  simp [ended]

theorem length_ended_cons (line : Bytes) (lines : List Bytes) :
    (ended (line :: lines)).length = line.length + 2 + (ended lines).length := by
  rw [ended_cons, List.length_append, List.length_cons, List.length_cons]
  omega

theorem ended_append (front back : List Bytes) :
    ended (front ++ back) = ended front ++ ended back :=
  List.flatMap_append

/-- The lines of a text, without their ends. -/
def lines : Bytes → List Bytes
  | [] => [[]]
  | 13 :: 10 :: s => [] :: lines s
  | c :: s =>
    match lines s with
    | [] => [[c]]
    | line :: rest => (c :: line) :: rest

theorem lines_end (s : Bytes) : lines (13 :: 10 :: s) = [] :: lines s := by
  rw [lines]

theorem lines_cons {c : Byte} (h : ¬ (c = 13 ∧ s.head? = some 10)) {line : Bytes}
    {rest : List Bytes} (hs : lines s = line :: rest) : lines (c :: s) = (c :: line) :: rest := by
  rw [lines, hs]
  rintro s' rfl rfl
  exact h ⟨rfl, rfl⟩

theorem OneLine.lines_eq (h : s.OneLine) : s.lines = [s] := by
  induction s with
  | nil => rfl
  | cons c s ih =>
    obtain ⟨hc, hs⟩ := oneLine_cons.1 h
    exact lines_cons hc (ih hs)

/-- The first line of a text. -/
theorem lines_append (h : s.OneLine) (t : Bytes) : (s ++ 13 :: 10 :: t).lines = s :: t.lines := by
  induction s with
  | nil => exact lines_end t
  | cons c s ih =>
    obtain ⟨hc, hs⟩ := oneLine_cons.1 h
    refine lines_cons (fun hend => ?_) (ih hs)
    cases s with
    | nil => simp at hend
    | cons c' s => exact hc hend

end PageServer.Bytes
