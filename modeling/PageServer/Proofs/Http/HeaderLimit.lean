import PageServer.Proofs.Http.Framing

/-!
# The limit of the header section

A step of the decoder visits the bytes at a stage and takes some of them off their front
(`Visit`). The decoder counts what was taken at the stages of the header section since it
started with the request, and nothing else; this is the total length of the lines taken
there, with their ends, and never above the limit. It fails because of the limit just if
the line in front of the bytes would take the count above it, as far as this line has
arrived (`Decoder.counted_exact`).

So the bytes that are left while more of the header section is needed are within the limit.
Not so at the line of a chunk size: whatever has no line end is left there, however long
it is (`Decoder.held_within`, `Decoder.held_above`).
-/

namespace PageServer.Http

/-- Whether bytes of a body are expected whose number was told. -/
def Stage.isBody : Stage → Bool
  | .body _ | .chunk _ => true
  | _ => false

namespace Decoder

variable {d d' : Decoder} {bytes rest line : Bytes} {limit : Nat}

/-! ### What a step counts -/

/-- The decoder after a step. -/
def Step.decoder : Step → Decoder
  | .wait d _ | .fail d _ | .go d _ => d

/-- The bytes that a step left. -/
def Step.left : Step → Bytes
  | .wait _ rest | .fail _ rest | .go _ rest => rest

/-- How long the line in front of the bytes is, with its end. A line that has not ended
    is as long as it has become. -/
def frontLength (bytes : Bytes) : Nat :=
  match cutLine bytes with
  | none => bytes.length
  | some (line, _) => line.length + 2

/-- A line that is refused changes the request and nothing else, and is not too long. -/
structure Refused (d : Decoder) (e : DecodeError) (d' : Decoder) : Prop where
  request : ∃ request, d' = { d with request }
  ne : ∀ n, e ≠ .headerTooLong n

variable {e : DecodeError}

theorem refused_onRequestLine (h : d.onRequestLine line = .error (e, d')) : d.Refused e d' := by
  simp only [onRequestLine] at h
  split at h
  · cases h
    exact ⟨⟨_, rfl⟩, fun _ => DecodeError.noConfusion⟩
  split at h
  · cases h
    exact ⟨⟨_, rfl⟩, fun _ => DecodeError.noConfusion⟩
  split at h
  · cases h
    exact ⟨⟨_, rfl⟩, fun _ => DecodeError.noConfusion⟩
  · cases h
    exact ⟨⟨_, rfl⟩, fun _ => DecodeError.noConfusion⟩
  split at h <;> cases h
  exact ⟨⟨_, rfl⟩, fun _ => DecodeError.noConfusion⟩

theorem refused_onField (h : d.onField line = .error (e, d')) : d.Refused e d' := by
  simp only [onField] at h
  split at h <;> cases h <;> exact ⟨⟨_, rfl⟩, fun _ => DecodeError.noConfusion⟩

theorem refused_onFieldsEnd (h : d.onFieldsEnd = .error (e, d')) : d.Refused e d' := by
  simp only [onFieldsEnd] at h
  split at h
  · cases h
  split at h
  · split at h <;> cases h
    exact ⟨⟨_, rfl⟩, fun _ => DecodeError.noConfusion⟩
  · cases h

theorem refused_onChunkSize (h : d.onChunkSize line = .error (e, d')) : d.Refused e d' := by
  simp only [onChunkSize] at h
  split at h
  · cases h
    exact ⟨⟨_, rfl⟩, fun _ => DecodeError.noConfusion⟩
  · cases h
  · split at h <;> cases h
    exact ⟨⟨_, rfl⟩, fun _ => DecodeError.noConfusion⟩

theorem refused_onHeaderLine (h : d.onHeaderLine line = .error (e, d')) : d.Refused e d' := by
  simp only [onHeaderLine] at h
  split at h
  · exact refused_onRequestLine h
  · exact refused_onFieldsEnd h
  · exact refused_onField h
  · cases h
  · cases h

/-- Whatever comes of a line, it is neither counted nor too long. -/
structure Neutral (d : Decoder) (rest : Bytes) (s : Step) : Prop where
  left_eq : s.left = rest
  limit_eq : s.decoder.limit = d.limit
  counted_eq : s.decoder.counted = d.counted
  error_ne : d.error = none → ∀ n, s.decoder.error ≠ some (.headerTooLong n)

theorem neutral_ofResult {r : Except (DecodeError × Decoder) Decoder}
    (hok : ∀ d', r = .ok d' → ∃ request stage, d' = { d with request, stage })
    (hfail : ∀ e d', r = .error (e, d') → d.Refused e d') (rest : Bytes) :
    Neutral d rest (.ofResult rest r) := by
  rcases r with ⟨e, d'⟩ | d'
  · obtain ⟨⟨request, rfl⟩, hne⟩ := hfail e d' rfl
    exact ⟨rfl, rfl, rfl, fun _ n h => hne n (Option.some.inj h)⟩
  · obtain ⟨request, stage, rfl⟩ := hok d' rfl
    exact ⟨rfl, rfl, rfl, fun hnone n h => by rw [hnone] at h; cases h⟩

theorem neutral_onHeaderLine (d : Decoder) (line rest : Bytes) :
    Neutral d rest (.ofResult rest (d.onHeaderLine line)) :=
  neutral_ofResult (fun _ => onHeaderLine_frame) (fun _ _ => refused_onHeaderLine) rest

theorem neutral_onChunkSize (d : Decoder) (line rest : Bytes) :
    Neutral d rest (.ofResult rest (d.onChunkSize line)) :=
  neutral_ofResult (fun _ => onChunkSize_frame) (fun _ _ => refused_onChunkSize) rest

/-- What a step took off the front of the bytes, how it counted this, and whether it found
    too long a line there. -/
structure Counts (d : Decoder) (bytes taken : Bytes) (s : Step) : Prop where
  eq_append : bytes = taken ++ s.left
  limit_eq : s.decoder.limit = d.limit
  counted_eq : s.decoder.counted = d.counted + if d.stage.isHeader then taken.length else 0
  counted_le : d.counted ≤ d.limit → s.decoder.counted ≤ d.limit
  line : d.stage.isHeader → taken = [] ∨ ∃ line : Bytes, line.OneLine ∧ taken = line ++ [13, 10]
  tooLong_iff : d.error = none → (s.decoder.error = some (.headerTooLong d.limit) ↔
    d.stage.isHeader ∧ d.limit < d.counted + frontLength bytes)

/-- A line of the header section is counted if it has ended within the limit. -/
theorem counts_headerLine (hstage : d.stage.isHeader) (bytes : Bytes) :
    ∃ taken, d.Counts bytes taken (d.stepHeaderLine bytes) := by
  rw [stepHeaderLine]
  rcases hcut : cutLine bytes with _ | ⟨line, rest⟩
  · -- Nothing is taken of a line that has not ended.
    have hfront : frontLength bytes = bytes.length := by rw [frontLength, hcut]
    dsimp only
    split
    · next hlimit =>
      exact ⟨[], rfl, rfl, by rw [if_pos hstage]; rfl, id, fun _ => .inl rfl,
        fun _ => iff_of_true rfl ⟨hstage, hfront ▸ hlimit⟩⟩
    · next hlimit =>
      exact ⟨[], rfl, rfl, by rw [if_pos hstage]; rfl, id, fun _ => .inl rfl,
        fun hnone => iff_of_false (fun h => by rw [Step.decoder, hnone] at h; cases h)
          fun h => hlimit (hfront ▸ h.2)⟩
  have hfront : frontLength bytes = line.length + 2 := by rw [frontLength, hcut]
  dsimp only
  split
  · next hlimit =>
    exact ⟨[], rfl, rfl, by rw [if_pos hstage]; rfl, id, fun _ => .inl rfl,
      fun _ => iff_of_true rfl ⟨hstage, hfront ▸ hlimit⟩⟩
  next hlimit =>
  obtain ⟨hbytes, hline⟩ := cutLine_eq_some_iff.1 hcut
  have hneutral := neutral_onHeaderLine (d.counting (line.length + 2)) line rest
  change ∃ taken, d.Counts bytes taken
    (.ofResult rest ((d.counting (line.length + 2)).onHeaderLine line))
  refine ⟨line ++ [13, 10], ?_, hneutral.limit_eq, ?_, fun _ => ?_, fun _ => .inr ⟨line, hline, rfl⟩,
    fun hnone => iff_of_false (hneutral.error_ne hnone _) fun h => hlimit (hfront ▸ h.2)⟩
  · rw [hneutral.left_eq, hbytes, List.append_assoc]
    rfl
  · rw [if_pos hstage, List.length_append]
    exact hneutral.counted_eq
  · rw [hneutral.counted_eq]
    exact Nat.not_lt.1 hlimit

/-- A step that is not at the header section counts nothing. -/
theorem counts_of_neutral {s : Step} {taken : Bytes} (hstage : d.stage.isHeader = false)
    (h : Neutral d rest s) (hbytes : bytes = taken ++ rest) : d.Counts bytes taken s := by
  have hstage : ¬ d.stage.isHeader := by simp [hstage]
  refine ⟨h.left_eq.symm ▸ hbytes, h.limit_eq, ?_, h.counted_eq ▸ id, fun hat => absurd hat hstage,
    fun hnone => iff_of_false (h.error_ne hnone _) fun hat => hstage hat.1⟩
  rw [if_neg hstage]
  exact h.counted_eq

/-- Every step counts what it takes at the stages of the header section, and only this. -/
theorem step_counts (d : Decoder) (bytes : Bytes) : ∃ taken, d.Counts bytes taken (d.step bytes) := by
  rcases hstage : d.stage with _ | _ | remaining | _ | size | _ | _
  case requestLine | fields | trailers =>
    have hheader : d.stage.isHeader := by rw [hstage]; rfl
    -- Only these stages count what they take.
    rw [step_of_isHeader hheader]
    exact counts_headerLine hheader bytes
  all_goals
    have hheader : d.stage.isHeader = false := by rw [hstage]; rfl
    have hnone : d.error = none → ∀ n, d.error ≠ some (.headerTooLong n) := fun h n hsome => by
      rw [h] at hsome
      cases hsome
    -- The other stages leave the count as it is.
    simp only [step, hstage]
  case body =>
    refine ⟨bytes.take remaining, counts_of_neutral hheader ?_ (List.take_append_drop _ _).symm⟩
    rw [stepBody]
    split <;> exact ⟨rfl, rfl, rfl, hnone⟩
  case chunkSize =>
    rw [stepChunkSize]
    rcases hcut : cutLine bytes with _ | ⟨line, rest⟩
    · exact ⟨[], counts_of_neutral hheader ⟨rfl, rfl, rfl, hnone⟩ rfl⟩
    · refine ⟨line ++ [13, 10], counts_of_neutral hheader (neutral_onChunkSize d line rest) ?_⟩
      rw [eq_of_cutLine hcut, List.append_assoc]
      rfl
  case chunk =>
    rw [stepChunk]
    split
    · exact ⟨[], counts_of_neutral hheader ⟨rfl, rfl, rfl, hnone⟩ rfl⟩
    split
    · next rest htail =>
      have hbytes : bytes = bytes.take size ++ [13, 10] ++ rest := by
        rw [List.append_assoc]
        exact (List.take_append_drop size bytes).symm.trans (congrArg _ htail)
      exact ⟨_, counts_of_neutral hheader ⟨rfl, rfl, rfl, hnone⟩ hbytes⟩
    · exact ⟨[], counts_of_neutral hheader ⟨rfl, rfl, rfl, fun _ _ h => by cases h⟩ rfl⟩
  case complete => exact ⟨[], counts_of_neutral hheader ⟨rfl, rfl, rfl, hnone⟩ rfl⟩

/-! ### Visits -/

/-- A step at a stage of the request, with the bytes that were there and those that were
    left. -/
structure Visit where
  stage : Stage
  bytes : Bytes
  left : Bytes

/-- The bytes that were taken off the front. -/
def Visit.taken (v : Visit) : Bytes := v.bytes.take (v.bytes.length - v.left.length)

/-- How many of them belong to the header section. -/
def Visit.counted (v : Visit) : Nat := if v.stage.isHeader then v.taken.length else 0

/-- The step that the decoder makes. -/
def visit (d : Decoder) (bytes : Bytes) : Visit := ⟨d.stage, bytes, (d.step bytes).left⟩

/-- The steps of feeding, one after the other. -/
def visits (d : Decoder) (bytes : Bytes) : List Visit :=
  if _h : d.error ≠ none ∨ d.stage = .complete then []
  else
    match _hstep : d.step bytes with
    | .wait _ _ | .fail _ _ => [d.visit bytes]
    | .go d' rest => d.visit bytes :: visits d' rest
termination_by d.distance bytes
decreasing_by exact distance_lt_of_go (not_or.1 _h).2 _hstep

/-- The length of the header section that was visited: of its lines that were taken, with
    their ends. -/
def headerLength (vs : List Visit) : Nat := (vs.map Visit.counted).sum

@[simp]
theorem headerLength_nil : headerLength [] = 0 := rfl

@[simp]
theorem headerLength_cons (v : Visit) (vs : List Visit) :
    headerLength (v :: vs) = v.counted + headerLength vs := List.sum_cons

theorem headerLength_append (vs ws : List Visit) :
    headerLength (vs ++ ws) = headerLength vs + headerLength ws := by
  rw [headerLength, List.map_append, List.sum_append]
  rfl

theorem visit_counts (d : Decoder) (bytes : Bytes) :
    d.Counts bytes (d.visit bytes).taken (d.step bytes) := by
  obtain ⟨taken, hcounts⟩ := d.step_counts bytes
  have htaken : bytes.take (bytes.length - (d.step bytes).left.length) = taken := by
    have hbytes := hcounts.eq_append
    generalize (d.step bytes).left = left at hbytes ⊢
    rw [hbytes, List.length_append, Nat.add_sub_cancel, List.take_left]
  rwa [Visit.taken, visit, htaken]

theorem visits_of_ended (h : d.error ≠ none ∨ d.stage = .complete) (bytes : Bytes) :
    d.visits bytes = [] := by
  rw [visits, dif_pos h]

/-- Step by step, until the request is complete or a step does not get on. -/
theorem visits_eq (herror : d.error = none) (hstage : d.stage ≠ .complete) (bytes : Bytes) :
    d.visits bytes = d.visit bytes ::
      match d.step bytes with
      | .go d' rest => d'.visits rest
      | _ => [] := by
  rw [visits, dif_neg (not_or.2 ⟨not_not.2 herror, hstage⟩)]
  split <;> rename_i hstep <;> rw [hstep]

/-- Induction on the visits of feeding: there is none, there is a last one, or one is
    followed by those of feeding what it left. -/
theorem visits_induction {motive : Decoder → Bytes → Prop}
    (ended : ∀ {d bytes}, d.error ≠ none ∨ d.stage = .complete → d.visits bytes = [] →
      (d.feed bytes).decoder = d → (d.feed bytes).rest = bytes → motive d bytes)
    (last : ∀ {d bytes}, d.error = none → d.visits bytes = [d.visit bytes] →
      (d.feed bytes).decoder = (d.step bytes).decoder →
      (d.feed bytes).rest = (d.step bytes).left → motive d bytes)
    (go : ∀ {d bytes d' rest}, d.error = none → d.step bytes = .go d' rest →
      d.visits bytes = d.visit bytes :: d'.visits rest →
      d.feed bytes = d'.feed rest → motive d' rest → motive d bytes)
    (d : Decoder) (bytes : Bytes) : motive d bytes := by
  induction d, bytes using feed_induction with
  | @failed d bytes e herror hfeed =>
    have hended : d.error ≠ none ∨ d.stage = .complete := .inl (by rw [herror]; nofun)
    exact ended hended (visits_of_ended hended _) (by rw [hfeed]) (by rw [hfeed])
  | complete herror hstage hfeed =>
    exact ended (.inr hstage) (visits_of_ended (.inr hstage) _) (by rw [hfeed]) (by rw [hfeed])
  | wait herror hstage hstep hfeed | fail herror hstage hstep hfeed =>
    have hvisits := visits_eq herror hstage
    exact last herror (by rw [hvisits, hstep]) (by rw [hfeed, hstep]; rfl) (by rw [hfeed, hstep]; rfl)
  | go herror hstage hstep hfeed ih =>
    exact go herror hstep (by rw [visits_eq herror hstage, hstep]) hfeed ih

/-- What feeding took off the bytes, and how the decoder counted this. -/
structure Accounts (d : Decoder) (bytes : Bytes) : Prop where
  limit_eq : (d.feed bytes).decoder.limit = d.limit
  counted_eq : (d.feed bytes).decoder.counted = d.counted + headerLength (d.visits bytes)
  counted_le : d.counted ≤ d.limit → (d.feed bytes).decoder.counted ≤ d.limit
  line : ∀ v ∈ d.visits bytes, v.stage.isHeader →
    v.taken = [] ∨ ∃ line : Bytes, line.OneLine ∧ v.taken = line ++ [13, 10]
  eq_append : (d.visits bytes).flatMap Visit.taken ++ (d.feed bytes).rest = bytes

/-- What is counted over a visit that is gone on from. -/
theorem counted_of_go (hstep : d.step bytes = .go d' rest) :
    d'.limit = d.limit ∧ d'.counted = d.counted + (d.visit bytes).counted := by
  have hcounts := d.visit_counts bytes
  rw [hstep] at hcounts
  exact ⟨hcounts.limit_eq, hcounts.counted_eq⟩

/-- Feeding counts what it takes at the stages of the header section, and only this. -/
theorem feed_accounts (d : Decoder) (bytes : Bytes) : d.Accounts bytes := by
  induction d, bytes using visits_induction with
  | ended _ hvisits hdecoder hrest =>
    exact ⟨by rw [hdecoder], by rw [hdecoder, hvisits]; rfl, by rw [hdecoder]; exact id,
      by rw [hvisits]; nofun, by rw [hvisits, hrest]; rfl⟩
  | @last d bytes herror hvisits hdecoder hrest =>
    have hcounts := d.visit_counts bytes
    refine ⟨by rw [hdecoder, hcounts.limit_eq], ?_, by rw [hdecoder]; exact hcounts.counted_le, ?_, ?_⟩
    · rw [hdecoder, hvisits, hcounts.counted_eq]
      rfl
    · rw [hvisits, List.forall_mem_singleton]
      exact hcounts.line
    · rw [hvisits, hrest, List.flatMap_singleton, ← hcounts.eq_append]
  | @go d bytes d' rest herror hstep hvisits hfeed ih =>
    have hcounts := d.visit_counts bytes
    obtain ⟨hlimit', hcounted'⟩ := counted_of_go hstep
    rw [hstep] at hcounts
    obtain ⟨hlimit, hcounted, hle, hline, happend⟩ := ih
    rw [← hfeed] at hlimit hcounted hle happend
    refine ⟨hlimit.trans hlimit', ?_, fun h => ?_, ?_, ?_⟩
    · rw [hcounted, hcounted', hvisits, headerLength_cons, Nat.add_assoc]
    · rw [← hlimit']
      exact hle (hlimit'.symm ▸ hcounts.counted_le h)
    · rw [hvisits, List.forall_mem_cons]
      exact ⟨hcounts.line, hline⟩
    · rw [hvisits, List.flatMap_cons, List.append_assoc, happend]
      exact hcounts.eq_append.symm

/-- Feeding fails because of the limit just if, at some stage of the header section, the
    line in front of the bytes is too long for it. -/
theorem feed_tooLong_iff (herror : d.error = none) (bytes : Bytes) :
    (d.feed bytes).decoder.error = some (.headerTooLong d.limit) ↔
      ∃ before v after, d.visits bytes = before ++ v :: after ∧ v.stage.isHeader ∧
        d.limit < d.counted + headerLength before + frontLength v.bytes := by
  induction d, bytes using visits_induction with
  | ended _ hvisits hdecoder _ =>
    rw [hdecoder, herror, hvisits]
    refine iff_of_false nofun ?_
    rintro ⟨before, v, after, hnil, -⟩
    simp at hnil
  | @last d bytes _ hvisits hdecoder _ =>
    rw [hdecoder, (d.visit_counts bytes).tooLong_iff herror, hvisits]
    constructor
    · rintro ⟨hheader, hlimit⟩
      exact ⟨[], _, [], rfl, hheader, hlimit⟩
    · rintro ⟨before, v, after, hsplit, hheader, hlimit⟩
      cases before with
      | nil =>
        obtain ⟨rfl, -⟩ := List.cons.inj hsplit
        exact ⟨hheader, hlimit⟩
      | cons w before => simp at hsplit
  | @go d bytes d' rest _ hstep hvisits hfeed ih =>
    have hcounts := d.visit_counts bytes
    obtain ⟨hlimit', hcounted'⟩ := counted_of_go hstep
    have herror' : d'.error = none := (step_go hstep).error_eq.trans herror
    rw [hfeed, ← hlimit', ih herror', hvisits]
    constructor
    · rintro ⟨before, v, after, hsplit, hheader, hlimit⟩
      refine ⟨_ :: before, v, after, by rw [hsplit]; rfl, hheader, ?_⟩
      rw [headerLength_cons]
      omega
    · rintro ⟨before, v, after, hsplit, hheader, hlimit⟩
      cases before with
      | nil =>
        -- The step would have failed.
        obtain ⟨rfl, -⟩ := List.cons.inj hsplit
        have hfails := (hcounts.tooLong_iff herror).2 ⟨hheader, hlimit' ▸ hlimit⟩
        rw [hstep, Step.decoder, herror'] at hfails
        cases hfails
      | cons w before =>
        obtain ⟨rfl, hafter⟩ := List.cons.inj hsplit
        refine ⟨before, v, after, hafter, hheader, ?_⟩
        rw [headerLength_cons] at hlimit
        omega

theorem status_of_error (h : (d.feed bytes).decoder.error ≠ none) :
    (d.feed bytes).status = .error := by
  induction d, bytes using feed_induction with
  | failed e herror hfeed | fail herror hstage hstep hfeed => rw [hfeed]
  | complete herror hstage hfeed =>
    rw [hfeed] at h
    exact absurd herror h
  | wait herror hstage hstep hfeed =>
    rw [hfeed] at h
    exact absurd (waits_of_feed hfeed).error_eq_none h
  | go herror hstage hstep hfeed ih =>
    rw [hfeed] at h ⊢
    exact ih h

/-! ### Waiting -/

/-- A decoder that waits makes a step that waits. -/
theorem Waits.step_eq (h : d.Waits bytes) : d.step bytes = .wait d bytes := by
  have herror := h.error_eq_none
  obtain ⟨hstage, hbody⟩ := h.stage_ne
  have hfeed : d.feed bytes = _ := feed_eq herror
  rw [if_neg hstage, h] at hfeed
  rcases hstep : d.step bytes with ⟨d', rest⟩ | ⟨d', rest⟩ | ⟨d', rest⟩
  · rw [hstep] at hfeed
    cases hfeed
    rfl
  · rw [hstep] at hfeed
    cases hfeed
  · -- Bytes that were taken are not left.
    rw [hstep] at hfeed
    obtain ⟨taken, htaken, hnil⟩ := (step_go hstep).eq_append
    have happend := (d'.feed_accounts rest).eq_append
    have hlength := congrArg List.length happend
    dsimp only at hfeed
    rw [← hfeed, List.length_append] at hlength
    have hpos : 0 < taken.length := List.length_pos_iff.2 fun h => hbody (hnil h).1
    have htotal := congrArg List.length htaken
    rw [List.length_append] at htotal
    dsimp only at hlength
    omega

/-- What the decoder leaves while it waits for more of the header section is within the
    limit. -/
theorem Waits.length_le (h : d.Waits bytes) (hstage : d.stage.isHeader) :
    d.counted + bytes.length ≤ d.limit := by
  have hstep := h.step_eq
  rw [step_of_isHeader hstage] at hstep
  simp only [stepHeaderLine] at hstep
  split at hstep
  · split at hstep
    · exact absurd hstep Step.ofResult_ne_wait
    · next hlimit => exact Nat.not_lt.1 hlimit
  · split at hstep <;> exact absurd hstep Step.ofResult_ne_wait

/-- What it leaves while it waits for a chunk size is a line that has not ended, and any
    such line is left. -/
theorem waits_chunkSize_iff (herror : d.error = none) (hstage : d.stage = .chunkSize) :
    d.Waits bytes ↔ bytes.OneLine := by
  rw [← cutLine_eq_none_iff]
  constructor
  · intro h
    have hstep := h.step_eq
    simp only [step, hstage, stepChunkSize] at hstep
    split at hstep
    · next hcut => exact hcut
    · exact absurd hstep Step.ofResult_ne_wait
  · intro hcut
    rw [Waits, feed_eq herror, if_neg (by rw [hstage]; exact Stage.noConfusion)]
    simp only [step, hstage, stepChunkSize, hcut]

/-! ### Decoders that are reached -/

/-- The decoder is reached from a new one by feeding and by starting with the next request,
    and these are its visits since it started with the request. -/
inductive Reached (limit : Nat) : Decoder → List Visit → Prop
  | fresh : Reached limit { limit } []
  | feed {d : Decoder} {vs : List Visit} (h : Reached limit d vs) (bytes : Bytes) :
      Reached limit (d.feed bytes).decoder (vs ++ d.visits bytes)
  | reset {d : Decoder} {vs : List Visit} (h : Reached limit d vs) : Reached limit d.reset []

/-- The limit is the one that it started with, and the count is that of the visits, within
    the limit. At the header section only lines were taken, with their ends. -/
structure Metered (limit : Nat) (d : Decoder) (vs : List Visit) : Prop where
  limit_eq : d.limit = limit
  counted_eq : d.counted = headerLength vs
  counted_le : d.counted ≤ limit
  line : ∀ v ∈ vs, v.stage.isHeader →
    v.taken = [] ∨ ∃ line : Bytes, line.OneLine ∧ v.taken = line ++ [13, 10]

theorem Metered.feed {vs : List Visit} (h : Metered limit d vs) (bytes : Bytes) :
    Metered limit (d.feed bytes).decoder (vs ++ d.visits bytes) := by
  obtain ⟨hlimit, hcounted, hle, hline, -⟩ := d.feed_accounts bytes
  refine ⟨hlimit.trans h.limit_eq, ?_, ?_, List.forall_mem_append.2 ⟨h.line, hline⟩⟩
  · rw [hcounted, h.counted_eq, headerLength_append]
  · rw [h.limit_eq] at hle
    exact hle h.counted_le

theorem Reached.metered {vs : List Visit} (h : Reached limit d vs) : Metered limit d vs := by
  induction h with
  | fresh => exact ⟨rfl, rfl, Nat.zero_le _, nofun⟩
  | feed _ bytes ih => exact ih.feed bytes
  | reset _ ih => exact ⟨ih.limit_eq, rfl, Nat.zero_le _, nofun⟩

/-- The count of a decoder is the length of the lines of the header section that it took
    since it started with the request, and within the limit. What is fed to it goes on
    being taken off the front. Feeding then fails because of the limit just if the lines
    that were taken, with the one in front of the bytes as far as it has arrived, are above
    the limit at some stage of the header section; and whenever it waits at such a stage,
    they are within the limit with all the bytes that are left. -/
theorem counted_exact {vs : List Visit} (h : Reached limit d vs) :
    d.counted = headerLength vs ∧ d.counted ≤ limit ∧
    (∀ v ∈ vs, v.stage.isHeader →
      v.taken = [] ∨ ∃ line : Bytes, line.OneLine ∧ v.taken = line ++ [13, 10]) ∧
    ∀ bytes, (d.visits bytes).flatMap Visit.taken ++ (d.feed bytes).rest = bytes ∧
      (d.error = none →
        ((d.feed bytes).status = .error ∧
            (d.feed bytes).decoder.error = some (.headerTooLong limit) ↔
          ∃ before v after, d.visits bytes = before ++ v :: after ∧ v.stage.isHeader ∧
            limit < headerLength (vs ++ before) + frontLength v.bytes)) ∧
      ((d.feed bytes).status = .needMore → (d.feed bytes).decoder.stage.isHeader →
        (d.feed bytes).decoder.counted + (d.feed bytes).rest.length ≤ limit) := by
  obtain ⟨hlimit, hcounted, hle, hline⟩ := h.metered
  refine ⟨hcounted, hle, hline, fun bytes => ⟨(d.feed_accounts bytes).eq_append, ?_, ?_⟩⟩
  · intro herror
    have hiff := feed_tooLong_iff herror bytes
    simp only [hlimit, hcounted, ← headerLength_append] at hiff
    rw [← hiff]
    exact ⟨fun h => h.2, fun h => ⟨status_of_error (by rw [h]; nofun), h⟩⟩
  · intro hmore hstage
    rcases hfeed : d.feed bytes with ⟨status, d', rest⟩
    rw [hfeed] at hmore hstage
    obtain rfl : status = .needMore := hmore
    -- What is held back is a part of a line, and it is within what is left of the limit.
    have hlimit' := (d.feed_accounts bytes).limit_eq
    rw [hfeed, hlimit] at hlimit'
    exact hlimit' ▸ (waits_of_feed hfeed).length_le hstage

/-- The header section of eighteen bytes is too long by one. -/
theorem counted_exact_seventeen : ∃ before v after,
    (({ limit := 17 } : Decoder).feed "GET / HTTP/1.1\r\n").decoder.visits "\r\n" =
        before ++ v :: after ∧ v.stage.isHeader ∧
      17 < headerLength (({ limit := 17 } : Decoder).visits "GET / HTTP/1.1\r\n" ++ before) +
        frontLength v.bytes := by
  have hfresh : Reached 17 { limit := 17 } [] := .fresh
  have hreached := hfresh.feed "GET / HTTP/1.1\r\n"
  obtain ⟨-, -, -, hfeed⟩ := counted_exact hreached
  exact ((hfeed "\r\n").2.1 (by decide +kernel)).1 ⟨by decide +kernel, by decide +kernel⟩

/-! ### Bytes that are held -/

/-- While no body is waited for whose length was told, the bytes that are left are within
    the limit, but for those of a chunk size line: any line that has not ended is left
    there. -/
theorem held_within {vs : List Visit} (h : Reached limit d vs) (bytes : Bytes)
    (hmore : (d.feed bytes).status = .needMore)
    (hbody : ¬ (d.feed bytes).decoder.stage.isBody) :
    ((d.feed bytes).decoder.stage ≠ .chunkSize → (d.feed bytes).rest.length ≤ limit) ∧
    ((d.feed bytes).decoder.stage = .chunkSize → (d.feed bytes).rest.OneLine ∧
      ∀ line : Bytes, line.OneLine → (d.feed bytes).decoder.feed line =
        ⟨.needMore, (d.feed bytes).decoder, line⟩) := by
  have hlimit := (h.metered.feed bytes).limit_eq
  rcases hfeed : d.feed bytes with ⟨status, d', rest⟩
  rw [hfeed] at hmore hbody hlimit
  obtain rfl : status = .needMore := hmore
  have hwaits := waits_of_feed hfeed
  refine ⟨fun hsize => ?_, fun hsize => ?_⟩
  · have hheader : d'.stage.isHeader := by
      -- Neither a body nor a size is waited for, so it is a header line.
      obtain ⟨hcomplete, -⟩ := hwaits.stage_ne
      dsimp only at hbody hsize
      cases hstage : d'.stage <;> simp_all [Stage.isBody, Stage.isHeader]
    have hlength := hwaits.length_le hheader
    dsimp only at hlimit ⊢
    omega
  · have hiff : ∀ text, d'.Waits text ↔ text.OneLine := fun text =>
      waits_chunkSize_iff hwaits.error_eq_none hsize
    exact ⟨(hiff rest).1 hwaits, fun line hline => (hiff line).2 hline⟩

/-- The end of a header section that has not come is left within the limit. -/
theorem held_within_unended :
    (({ limit := 64 } : Decoder).feed "GET / HTTP/1.1\r\nHost: a").rest.length ≤ 64 := by
  have hfresh : Reached 64 { limit := 64 } [] := .fresh
  exact (held_within hfresh "GET / HTTP/1.1\r\nHost: a" (by decide +kernel)
    (by decide +kernel)).1 (by decide +kernel)

/-- A chunk size of a hundred digits is left above the limit. -/
theorem held_above : ¬ ∀ (limit : Nat) (d : Decoder) (vs : List Visit) (bytes : Bytes),
    Reached limit d vs → (d.feed bytes).status = .needMore →
    ¬ (d.feed bytes).decoder.stage.isBody → (d.feed bytes).rest.length ≤ limit := by
  intro hall
  have hrest := hall 64 { limit := 64 } []
    (ascii "POST / HTTP/1.1\r\nTransfer-Encoding: chunked\r\n\r\n" ++ List.replicate 100 49) .fresh
    (by decide +kernel) (by decide +kernel)
  exact absurd hrest (by decide +kernel)

end Decoder

end PageServer.Http
