import PageServer.Http.Connection
import PageServer.Proofs.Act
import PageServer.Proofs.Http.Decoder

/-!
# What the moves of a connection come to

One statement for each move. An answer counts only for a request that is out
(`Connection.deliver_eq`, `Connection.deliver_of_not_out`), so that of several
answers given on the spot only the first does (`Connection.deliverAll_cons`); a
fault closes whatever is open (`Connection.fault_eq`). The dispatcher is left
abstract: a request that was handed over ends as its handling says
(`Connection.handled`, `Connection.handOver_yields`).

Going on with the buffered bytes is an induction on the requests in them
(`Connection.advance_yields`): what holds through idling, rejecting and handing
over holds at its end, and then the connection *rests*, so that the bytes it
keeps hold no request (`Connection.Rests`).
-/

namespace PageServer.Http

/-- The response as it is written for a request: in its version, and closing the
    connection unless it is to stay open. -/
def Response.for (response : Response) (request : Request) : Response :=
  { response with version := request.version, close := !request.keepAlive }

/-- The response to bytes that are no request. -/
def Response.badRequest : Response :=
  { Response.plain 400 "Malformed HTTP request" with close := true }

/-- The sending of a response. -/
def Response.sends (response : Response) : List Action := response.pieces.map .send

namespace Connection

variable {σ : Type} {c : Connection} {request : Request} {dispatch : Dispatcher σ}

theorem isAwaiting_iff : c.isAwaiting = true ↔ c.phase = .awaiting := by
  unfold isAwaiting
  cases c.phase <;> simp

theorem isClosed_iff : c.isClosed = true ↔ c.phase = .closed := by
  unfold isClosed
  cases c.phase <;> simp

/-! ### Single moves -/

/-- What an answer to the request that is out comes to. -/
def delivered (c : Connection) (request : Request) (response : Response) : Moved :=
  if request.keepAlive then
    ({ c with served := c.served + 1, phase := .awaiting },
      (response.for request).sends ++ [.resumeReading])
  else
    ({ c with served := c.served + 1, phase := .closed },
      (response.for request).sends ++ [.resumeReading, .shutdown])

/-- What a fault comes to. -/
def faulted (c : Connection) : Moved :=
  match c.phase with
  | .closed => (c, [])
  | _ => ({ c with phase := .closed }, [.forceClose])

/-- What a rejection comes to. -/
def rejected (c : Connection) : Moved :=
  ({ c with decoder := c.decoder.reset, buffered := [], phase := .closed },
    Response.badRequest.sends ++ [.resumeReading, .shutdown])

theorem deliver_eq (h : c.phase = .dispatched request) (response : Response) :
    (c.deliver response).value = c.delivered request response := by
  cases hk : request.keepAlive
  · simp [deliver, h, delivered, hk, closeGracefully, Response.for, Response.sends]
  · simp [deliver, h, delivered, hk, Response.for, Response.sends]

theorem deliver_of_not_out (h : ∀ request, c.phase ≠ .dispatched request) (response : Response) :
    (c.deliver response).value = (c, []) := by
  cases hphase : c.phase with
  | dispatched request => exact absurd hphase (h request)
  | awaiting => simp [deliver, hphase]
  | closed => simp [deliver, hphase]

theorem fault_eq (c : Connection) (reason : Bytes) : (c.fault reason).value = c.faulted := by
  cases hphase : c.phase <;> simp [fault, faulted, hphase]

theorem faulted_phase (c : Connection) : c.faulted.1.phase = .closed := by
  rw [faulted]
  split
  · assumption
  · rfl

theorem disconnect_eq (c : Connection) : c.disconnect.value = { c with phase := .closed } := by
  rw [disconnect]
  split <;> rfl

theorem reject_eq (c : Connection) (e : DecodeError) : (c.reject e).value = c.rejected := by
  simp [reject, rejected, closeGracefully, Response.sends, Response.badRequest]

/-- No request is out once one was answered. -/
theorem delivered_not_out (c : Connection) (request : Request) (response : Response) :
    ∀ r, (c.delivered request response).1.phase ≠ .dispatched r := by
  intro r
  rw [delivered]
  split <;> exact Phase.noConfusion

theorem deliverAll_of_not_out (h : ∀ request, c.phase ≠ .dispatched request)
    (responses : List Response) : (c.deliverAll responses).value = (c, []) := by
  induction responses with
  | nil => rfl
  | cons response rest ih =>
    rw [deliverAll, Reported.value_bind, deliver_of_not_out h, Reported.value_bind, ih]
    rfl

/-- Of several answers only the first counts. -/
theorem deliverAll_cons (h : c.phase = .dispatched request) (response : Response)
    (rest : List Response) :
    (c.deliverAll (response :: rest)).value = c.delivered request response := by
  rw [deliverAll, Reported.value_bind, deliver_eq h, Reported.value_bind,
    deliverAll_of_not_out (c.delivered_not_out request response)]
  simp

/-! ### Handing over -/

/-- What a handling makes of the connection whose request it handled: its answers
    and then, if it failed, its fault. -/
def handled (c : Connection) (h : Handling) : Moved :=
  let answered := (c.deliverAll h.answers).value
  let ended := if h.fault.isSome then answered.1.faulted else (answered.1, [])
  (ended.1, .pauseReading :: answered.2 ++ ended.2)

theorem handOver_yields {s : σ} {Q : Moved → σ → Prop}
    (h : (dispatch request).Yields s fun handling s' => Q (c.handled handling) s') :
    (handOver dispatch c request).Yields s Q := by
  refine Act.yields_bind (Act.yields_record (Act.yields_bind (h.mono fun handling s' hQ => ?_)))
  refine Act.yields_bind (Act.yields_report ?_)
  cases hfault : handling.fault with
  | none =>
    refine Act.yields_pure ?_
    simpa [handled, hfault] using hQ
  | some reason =>
    refine Act.yields_bind (Act.yields_report (Act.yields_pure ?_))
    simpa [handled, hfault, fault_eq] using hQ

/-- What answers and faults do not touch. -/
structure SameIntake (c c' : Connection) : Prop where
  decoder_eq : c'.decoder = c.decoder
  buffered_eq : c'.buffered = c.buffered

theorem faulted_sameIntake (c : Connection) : SameIntake c c.faulted.1 := by
  rw [faulted]
  split <;> exact ⟨rfl, rfl⟩

theorem delivered_sameIntake (c : Connection) (request : Request) (response : Response) :
    SameIntake c (c.delivered request response).1 := by
  rw [delivered]
  split <;> exact ⟨rfl, rfl⟩

theorem deliverAll_sameIntake (c : Connection) (responses : List Response) :
    SameIntake c (c.deliverAll responses).value.1 := by
  cases hphase : c.phase with
  | dispatched request =>
    cases responses with
    | nil => exact ⟨rfl, rfl⟩
    | cons response rest =>
      rw [deliverAll_cons hphase]
      exact c.delivered_sameIntake request response
  | awaiting =>
    rw [deliverAll_of_not_out (by simp [hphase])]
    exact ⟨rfl, rfl⟩
  | closed =>
    rw [deliverAll_of_not_out (by simp [hphase])]
    exact ⟨rfl, rfl⟩

theorem handled_sameIntake (c : Connection) (h : Handling) : SameIntake c (c.handled h).1 := by
  have hanswered := c.deliverAll_sameIntake h.answers
  simp only [handled]
  split
  · have hended := (c.deliverAll h.answers).value.1.faulted_sameIntake
    exact ⟨hended.decoder_eq.trans hanswered.decoder_eq,
      hended.buffered_eq.trans hanswered.buffered_eq⟩
  · exact hanswered

/-! ### Going on -/

/-- The connection with a request just taken off its bytes. -/
def taking (c : Connection) (d : Decoder) (rest : Bytes) : Connection :=
  { c with decoder := d.reset, buffered := rest, phase := .dispatched d.request }

section Decode

variable {d : Decoder} {rest : Bytes}

theorem decode_of_needMore (h : c.decoder.feed c.buffered = ⟨.needMore, d, rest⟩) :
    c.decode.value = .idle { c with decoder := d, buffered := rest } := by
  simp only [decode, h]

theorem decode_of_complete (h : c.decoder.feed c.buffered = ⟨.complete, d, rest⟩) :
    c.decode.value = .ready (c.taking d rest) d.request := by
  simp only [decode, h, taking]

theorem decode_of_error {e : DecodeError} (h : c.decoder.feed c.buffered = ⟨.error, d, rest⟩)
    (he : d.error = some e) :
    c.decode.value = .malformed { c with decoder := d, buffered := rest } e := by
  simp only [decode, h, he]

end Decode

/-- A connection between two events. Its decoder waits, and where a request is
    awaited, it waits for more than the buffered bytes: these hold no request
    and no error. -/
structure Rests (c : Connection) : Prop where
  decoder_waits : c.decoder.Waits []
  buffered_waits : c.phase = .awaiting → c.decoder.Waits c.buffered

/-- What holds of a connection, the actions so far and the state, and goes on to
    hold while the buffered bytes are gone through. -/
structure Kept (dispatch : Dispatcher σ) (P : Connection → List Action → σ → Prop) : Prop where
  idle : ∀ {c acts s d rest}, P c acts s → c.phase = .awaiting → c.decoder.Waits [] →
    c.decoder.feed c.buffered = ⟨.needMore, d, rest⟩ →
    P { c with decoder := d, buffered := rest } acts s
  reject : ∀ {c acts s d rest}, P c acts s → c.phase = .awaiting → c.decoder.Waits [] →
    c.decoder.feed c.buffered = ⟨.error, d, rest⟩ →
    P { c with decoder := d, buffered := rest }.rejected.1
      (acts ++ { c with decoder := d, buffered := rest }.rejected.2) s
  handOver : ∀ {c acts s d rest}, P c acts s → c.phase = .awaiting → c.decoder.Waits [] →
    c.decoder.feed c.buffered = ⟨.complete, d, rest⟩ →
    (dispatch d.request).Yields s fun h s' =>
      P ((c.taking d rest).handled h).1 (acts ++ ((c.taking d rest).handled h).2) s'

theorem advanceFor_yields {P : Connection → List Action → σ → Prop} (hP : Kept dispatch P)
    {rounds : Nat} {acts : List Action} {s : σ} (hrounds : c.buffered.length ≤ rounds)
    (hwaits : c.decoder.Waits []) (h : P c acts s) :
    (advanceFor dispatch rounds c).Yields s fun m s' => P m.1 (acts ++ m.2) s' ∧ m.1.Rests := by
  -- There is a round for each buffered byte, and a request takes one at least.
  induction rounds generalizing c acts s with
  | zero =>
    have hnil : c.buffered = [] := List.eq_nil_of_length_eq_zero (Nat.le_zero.1 hrounds)
    refine Act.yields_pure ⟨?_, hwaits, fun _ => by rw [hnil]; exact hwaits⟩
    rw [List.append_nil]
    exact h
  | succ rounds ih =>
    rw [advanceFor]
    by_cases hstop : (!c.isAwaiting || c.buffered.isEmpty) = true
    · -- There is nothing to go on with.
      rw [if_pos hstop]
      refine Act.yields_pure ⟨?_, hwaits, fun hphase => ?_⟩
      · rw [List.append_nil]
        exact h
      · have hnil : c.buffered = [] := by simpa [isAwaiting_iff.2 hphase] using hstop
        rw [hnil]
        exact hwaits
    · rw [if_neg hstop]
      have hphase : c.phase = .awaiting := by
        rw [Bool.or_eq_true, not_or, Bool.not_eq_true', Bool.not_eq_false] at hstop
        exact isAwaiting_iff.1 hstop.1
      refine Act.yields_bind (Act.yields_report ?_)
      rcases hfeed : c.decoder.feed c.buffered with ⟨_ | _ | _, d, rest⟩
      · -- No more requests: the decoder keeps what it took in.
        rw [decode_of_needMore hfeed]
        have hd := Decoder.waits_of_feed hfeed
        refine Act.yields_pure ⟨?_, hd.nil, fun _ => hd⟩
        rw [List.append_nil]
        exact hP.idle h hphase hwaits hfeed
      · -- One request, and fewer bytes behind it.
        rw [decode_of_complete hfeed]
        refine Act.yields_bind (handOver_yields ((hP.handOver h hphase hwaits hfeed).mono ?_))
        intro handling s' hhandled
        have hsame := (c.taking d rest).handled_sameIntake handling
        have hlt := hwaits.length_lt hfeed
        refine Act.yields_bind ((ih ?_ ?_ hhandled).mono ?_)
        · rw [hsame.buffered_eq]
          simp only [taking]
          omega
        · rw [hsame.decoder_eq]
          exact d.waits_reset
        · intro m s'' hm
          refine Act.yields_pure ?_
          rw [← List.append_assoc]
          exact hm
      · obtain ⟨e, he⟩ := Decoder.error_of_feed hfeed
        rw [decode_of_error hfeed he]
        refine Act.yields_report ?_
        rw [reject_eq]
        exact ⟨hP.reject h hphase hwaits hfeed, d.waits_reset, fun h => Phase.noConfusion h⟩

/-- What is kept while the connection goes on holds at its end, and then the
    connection rests. -/
theorem advance_yields {P : Connection → List Action → σ → Prop} (hP : Kept dispatch P)
    {acts : List Action} {s : σ} (hwaits : c.decoder.Waits []) (h : P c acts s) :
    (advance dispatch c).Yields s fun m s' => P m.1 (acts ++ m.2) s' ∧ m.1.Rests :=
  advanceFor_yields hP le_rfl hwaits h

/-! ### Events -/

section Events

variable {P : Connection → List Action → σ → Prop} {acts : List Action} {s : σ}

theorem receive_yields (hP : Kept dispatch P) (hrests : c.Rests) {bytes : Bytes}
    (hclosed : c.phase = .closed → P c acts s)
    (hopen : c.phase ≠ .closed → P { c with buffered := c.buffered ++ bytes } acts s) :
    (receive dispatch c bytes).Yields s fun m s' => P m.1 (acts ++ m.2) s' ∧ m.1.Rests := by
  rw [receive]
  split
  · next h =>
    refine Act.yields_pure ⟨?_, hrests⟩
    rw [List.append_nil]
    exact hclosed (isClosed_iff.1 h)
  · next h => exact advance_yields hP hrests.decoder_waits (hopen (mt isClosed_iff.2 h))

theorem receiveFrom_yields {buffer : ByteBuffer} {Q : Moved → σ → Prop}
    (h : (receive dispatch c buffer.unread).Yields s Q) :
    (receiveFrom dispatch c buffer).Yields s fun r s' => Q r.1 s' ∧ r.2 = buffer.clear :=
  Act.yields_bind (h.mono fun _ _ hQ => Act.yields_pure ⟨hQ, rfl⟩)

theorem answer_yields (hP : Kept dispatch P) (hrests : c.Rests) {response : Response}
    (hout : ∀ request, c.phase = .dispatched request →
      P (c.delivered request response).1 (acts ++ (c.delivered request response).2) s)
    (hdropped : (∀ request, c.phase ≠ .dispatched request) → P c acts s) :
    (answer dispatch c response).Yields s fun m s' => P m.1 (acts ++ m.2) s' ∧ m.1.Rests := by
  refine Act.yields_bind (Act.yields_report ?_)
  cases hphase : c.phase with
  | dispatched request =>
    rw [deliver_eq hphase]
    have hsame := c.delivered_sameIntake request response
    refine Act.yields_bind ((advance_yields hP ?_ (hout request hphase)).mono ?_)
    · rw [hsame.decoder_eq]
      exact hrests.decoder_waits
    · intro m s' hm
      refine Act.yields_pure ?_
      rw [← List.append_assoc]
      exact hm
  | awaiting | closed =>
    -- Nothing waits for the answer, so it is dropped.
    have hnot : ∀ request, c.phase ≠ .dispatched request := by simp [hphase]
    rw [deliver_of_not_out hnot]
    refine Act.yields_pure ⟨?_, hrests⟩
    rw [List.append_nil]
    exact hdropped hnot

/-- An answer to no request changes nothing. -/
theorem answer_of_not_out (h : ∀ request, c.phase ≠ .dispatched request) (response : Response) :
    (answer dispatch c response).Yields s fun m s' => m = (c, []) ∧ s' = s := by
  refine Act.yields_bind (Act.yields_report ?_)
  rw [deliver_of_not_out h]
  cases hphase : c.phase with
  | dispatched request => exact absurd hphase (h request)
  | awaiting | closed => exact Act.yields_pure ⟨rfl, rfl⟩

end Events

end Connection

end PageServer.Http
