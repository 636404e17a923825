import PageServer.Proofs.Http.Decoder

/-!
# Taking requests off a stream

The bytes of a peer arrive in pieces. After each piece the decoder is fed with
what is there, each request that is complete is taken, and feeding goes on
until it completes no more (`Decoder.drain`, `Intake.add`).

How the stream was cut into pieces makes no difference (`intake_of_pieces`): not
to the requests, not to the bytes that are left, and not to the decoder, its
error included. The reason is that what is done with the bytes so far is never
taken back when more bytes follow (`Decoder.drain_append`).
-/

namespace PageServer.Http

open Decoder (Status Fed)

/-- What was taken off a stream so far. -/
structure Intake where
  /-- The requests, in their order. -/
  requests : List Request := []
  /-- What the last feeding came to: it did not complete a request. -/
  last : Fed

namespace Intake

/-- The intake with requests taken before it. -/
def after (requests : List Request) (i : Intake) : Intake :=
  { i with requests := requests ++ i.requests }

theorem after_nil (i : Intake) : i.after [] = i := rfl

theorem after_after (front back : List Request) (i : Intake) :
    (i.after back).after front = i.after (front ++ back) := by
  simp only [after, List.append_assoc]

end Intake

namespace Decoder

variable {d d' : Decoder} {bytes rest waited : Bytes}

/-- Takes the requests off the bytes, for at most so many rounds. -/
def drainFor : Nat → Decoder → Bytes → Intake
  | 0, d, bytes => { last := ⟨.complete, d, bytes⟩ }
  | rounds + 1, d, bytes =>
    match d.feed bytes with
    | ⟨.complete, d', rest⟩ => (drainFor rounds d'.reset rest).after [d'.request]
    | ⟨status, d', rest⟩ => { last := ⟨status, d', rest⟩ }

/-- Takes the requests off the bytes. Each of them is at least one byte. -/
def drain (d : Decoder) (bytes : Bytes) : Intake := drainFor (bytes.length + 1) d bytes

/-- With a round for each byte and one more, the number of rounds makes no
    difference. -/
theorem drainFor_eq {n m : Nat} (hw : d.Waits waited) (hn : bytes.length < n)
    (hm : bytes.length < m) : drainFor n d bytes = drainFor m d bytes := by
  induction n generalizing m d bytes waited with
  | zero => omega
  | succ n ih =>
    cases m with
    | zero => omega
    | succ m =>
      rw [drainFor, drainFor]
      split
      · next d' rest hfeed =>
        have hlt := hw.length_lt hfeed
        rw [ih (waits_reset d') (by omega) (m := m) (by omega)]
      · rfl

theorem drain_of_complete (hw : d.Waits waited) (h : d.feed bytes = ⟨.complete, d', rest⟩) :
    d.drain bytes = (d'.reset.drain rest).after [d'.request] := by
  have hlt := hw.length_lt h
  rw [drain, drainFor, h]
  simp only
  rw [drain, drainFor_eq (waits_reset d') hlt (Nat.lt_succ_self _)]

theorem drain_of_needMore (h : d.feed bytes = ⟨.needMore, d', rest⟩) :
    d.drain bytes = { last := ⟨.needMore, d', rest⟩ } := by
  rw [drain, drainFor, h]

theorem drain_of_fail (h : d.feed bytes = ⟨.error, d', rest⟩) :
    d.drain bytes = { last := ⟨.error, d', rest⟩ } := by
  rw [drain, drainFor, h]

theorem drain_of_error {e : DecodeError} (h : d.error = some e) :
    d.drain bytes = { last := ⟨.error, d, bytes⟩ } :=
  drain_of_fail (feed_of_error h)

/-- What is taken depends only on what the first feeding comes to. -/
theorem drain_congr {waited' bytes' : Bytes} (hw : d.Waits waited) (hw' : d'.Waits waited')
    (h : d.feed bytes = d'.feed bytes') : d.drain bytes = d'.drain bytes' := by
  rcases hfeed : d'.feed bytes' with ⟨_ | _ | _, d₁, rest⟩ <;> rw [hfeed] at h
  · rw [drain_of_needMore h, drain_of_needMore hfeed]
  · rw [drain_of_complete hw h, drain_of_complete hw' hfeed]
  · rw [drain_of_fail h, drain_of_fail hfeed]

end Decoder

namespace Intake

variable {i : Intake}

/-- Nothing taken yet, by a decoder with a limit. -/
def start (limit : Nat) : Intake := { last := ⟨.needMore, { limit }, []⟩ }

/-- Takes what is complete once a piece has arrived. -/
def add (i : Intake) (piece : Bytes) : Intake :=
  (i.last.decoder.drain (i.last.rest ++ piece)).after i.requests

theorem after_add (requests : List Request) (i : Intake) (piece : Bytes) :
    (i.after requests).add piece = (i.add piece).after requests := by
  rw [add, add, after_after]
  rfl

/-- An intake between two pieces: the decoder waits, or it has failed. -/
def Steady (i : Intake) : Prop :=
  match i.last with
  | ⟨.needMore, d, rest⟩ => d.Waits rest
  | ⟨.error, d, _⟩ => ∃ e, d.error = some e
  | ⟨.complete, _, _⟩ => False

theorem start_steady (limit : Nat) : (start limit).Steady := rfl

theorem Steady.after (h : i.Steady) (requests : List Request) : (i.after requests).Steady := h

end Intake

namespace Decoder

variable {d d' : Decoder} {bytes rest waited : Bytes}

/-- Taking requests ends with a decoder that waits or has failed. -/
theorem drain_steady (hw : d.Waits waited) (bytes : Bytes) : (d.drain bytes).Steady := by
  induction hn : bytes.length using Nat.strongRecOn generalizing d bytes waited with
  | ind n ih =>
    rcases hfeed : d.feed bytes with ⟨_ | _ | _, d', rest⟩
    · rw [drain_of_needMore hfeed]
      exact waits_of_feed hfeed
    · rw [drain_of_complete hw hfeed]
      exact (ih _ (hn ▸ hw.length_lt hfeed) (waits_reset d') rest rfl).after _
    · rw [drain_of_fail hfeed]
      exact error_of_feed hfeed

/-- What was taken off the bytes so far stands, and the new bytes are added to
    it. -/
theorem drain_append (hw : d.Waits waited) (bytes more : Bytes) :
    d.drain (bytes ++ more) = (d.drain bytes).add more := by
  -- Induction on the bytes, of which each complete request takes some.
  induction hn : bytes.length using Nat.strongRecOn generalizing d bytes waited with
  | ind n ih =>
    have happend := feed_append d bytes more
    rcases hfeed : d.feed bytes with ⟨_ | _ | _, d', rest⟩ <;>
      simp only [hfeed, Fed.resume] at happend
    · have hcongr := drain_congr hw (waits_of_feed hfeed) happend
      rw [hcongr, drain_of_needMore hfeed, Intake.add, Intake.after_nil]
    · rw [drain_of_complete hw happend, drain_of_complete hw hfeed, Intake.after_add,
        ih _ (hn ▸ hw.length_lt hfeed) (waits_reset d') rest rfl]
    · obtain ⟨e, he⟩ := error_of_feed hfeed
      rw [drain_of_fail happend, drain_of_fail hfeed, Intake.add, drain_of_error he]
      rfl

end Decoder

namespace Intake

variable {i : Intake}

theorem Steady.add (h : i.Steady) (piece : Bytes) : (i.add piece).Steady := by
  obtain ⟨requests, ⟨_ | _ | _, d, rest⟩⟩ := i
  · exact (Decoder.drain_steady h _).after _
  · exact h.elim
  · obtain ⟨e, he⟩ := h
    simp only [Intake.add, Decoder.drain_of_error he]
    exact ⟨e, he⟩

/-- An empty piece changes nothing. -/
theorem Steady.add_nil (h : i.Steady) : i.add [] = i := by
  obtain ⟨requests, ⟨_ | _ | _, d, rest⟩⟩ := i
  · simp only [Intake.add, List.append_nil]
    rw [Decoder.drain_of_needMore h, Intake.after, List.append_nil]
  · exact h.elim
  · obtain ⟨e, he⟩ := h
    simp only [Intake.add, List.append_nil]
    rw [Decoder.drain_of_error he, Intake.after, List.append_nil]

/-- Two pieces one after the other are as good as one. -/
theorem Steady.add_add (h : i.Steady) (first second : Bytes) :
    (i.add first).add second = i.add (first ++ second) := by
  obtain ⟨requests, ⟨_ | _ | _, d, rest⟩⟩ := i
  · have hw : d.Waits rest := h
    simp only [Intake.add, ← List.append_assoc]
    rw [Decoder.drain_append hw (rest ++ first) second]
    exact after_add _ _ _
  · exact h.elim
  · obtain ⟨e, he⟩ := h
    simp only [Intake.add, Decoder.drain_of_error he, Intake.after, List.append_nil,
      List.append_assoc]

/-- The stream cut into pieces, whatever the cuts, comes to what the whole stream
    comes to. -/
theorem Steady.foldl_add (h : i.Steady) (pieces : List Bytes) :
    pieces.foldl Intake.add i = i.add pieces.flatten := by
  induction pieces generalizing i with
  | nil => exact h.add_nil.symm
  | cons piece pieces ih => rw [List.foldl_cons, ih (h.add piece), h.add_add, List.flatten_cons]

/-- However a stream is cut into pieces, taking requests after each piece comes
    to the same as taking them off the whole stream at once: the same requests,
    the same bytes left and the same decoder, with its error. Either way it ends
    with a feeding that completes no request. -/
theorem intake_of_pieces (limit : Nat) (pieces : List Bytes) :
    pieces.foldl add (start limit) = (start limit).add pieces.flatten ∧
      (pieces.foldl add (start limit)).last.status ≠ .complete := by
  have hwhole := (start_steady limit).foldl_add pieces
  refine ⟨hwhole, fun hstatus => ?_⟩
  have hsteady := (start_steady limit).add pieces.flatten
  rw [hwhole] at hstatus
  rcases hlast : ((start limit).add pieces.flatten).last with ⟨status, d, rest⟩
  rw [hlast] at hstatus
  rw [Steady, hlast, show status = .complete from hstatus] at hsteady
  exact hsteady

end Intake

end PageServer.Http
