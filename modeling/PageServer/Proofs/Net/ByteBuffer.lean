import PageServer.Net.ByteBuffer
import PageServer.Proofs.Bytes
import Mathlib.Order.MinMax

/-!
# Byte buffers as queues

A buffer is *valid* if its unread bytes lie within its storage (`ByteBuffer.Valid`).
What its parts do to a valid buffer is told of three things: the unread bytes, their
number and the size of the storage. Room is made without a change of the unread bytes
(`ByteBuffer.unread_reserve`), and the storage is enlarged only if it is too small for
all that is to be unread (`ByteBuffer.capacity_reserve`).

So each call is one on a queue of bytes (`ByteBuffer.Valid.serves`), and a buffer used
by any calls is one that refines a queue (`ByteBuffer.refinesQueue`): bytes leave in
the order in which they came, the storage never shrinks, and it is no larger than the
first one, or than the double of what was unread at some time.
-/

namespace PageServer.ByteBuffer

variable {b : ByteBuffer} {data : Bytes} {n : Nat}

/-! ### Valid buffers -/

/-- The unread bytes lie within the storage. -/
structure Valid (b : ByteBuffer) : Prop where
  first_le : b.first ≤ b.last
  last_le : b.last ≤ b.capacity

theorem valid_ofCapacity (n : Nat) : (ofCapacity n).Valid := ⟨Nat.le_refl _, Nat.zero_le _⟩

/-- The unread bytes are those up to `last` without those up to `first`. -/
theorem unread_eq (b : ByteBuffer) : b.unread = (b.storage.take b.last).drop b.first :=
  List.drop_take.symm

@[simp] theorem unread_ofCapacity (n : Nat) : (ofCapacity n).unread = [] := rfl

@[simp] theorem capacity_ofCapacity (n : Nat) : (ofCapacity n).capacity = n :=
  List.length_replicate

theorem Valid.length_unread (hb : b.Valid) : b.unread.length = b.size := by
  have := hb.last_le
  rw [unread, List.length_take, List.length_drop, size, capacity] at *
  omega

theorem Valid.size_le (hb : b.Valid) : b.size ≤ b.capacity :=
  Nat.le_trans (Nat.sub_le _ _) hb.last_le

/-! ### Taking bytes out -/

theorem valid_clear (b : ByteBuffer) : b.clear.Valid := ⟨Nat.le_refl _, Nat.zero_le _⟩

@[simp] theorem unread_clear (b : ByteBuffer) : b.clear.unread = [] := rfl

@[simp] theorem capacity_clear (b : ByteBuffer) : b.clear.capacity = b.capacity := rfl

theorem Valid.retrieve (hb : b.Valid) (n : Nat) : (b.retrieve n).Valid := by
  rw [ByteBuffer.retrieve]
  split
  · exact valid_clear b
  · next hn =>
    rw [size] at hn
    exact ⟨by change b.first + n ≤ b.last; omega, hb.last_le⟩

/-- More bytes than there are cannot be taken out. -/
theorem Valid.unread_retrieve (hb : b.Valid) (n : Nat) :
    (b.retrieve n).unread = b.unread.drop n := by
  rw [ByteBuffer.retrieve]
  split
  · next hn => exact (List.drop_eq_nil_of_le (hb.length_unread ▸ hn)).symm
  · rw [unread_eq, unread_eq, List.drop_drop]

@[simp] theorem capacity_retrieve (b : ByteBuffer) (n : Nat) :
    (b.retrieve n).capacity = b.capacity := by
  rw [ByteBuffer.retrieve]
  split <;> rfl

/-! ### Making room -/

theorem length_overwrite {storage : Bytes} {place : Nat} (h : place + data.length ≤ storage.length) :
    (overwrite storage place data).length = storage.length := by
  simp only [overwrite, List.length_append, List.length_take, List.length_drop]
  omega

/-- What stands up to the end of the bytes written. -/
theorem take_overwrite {storage : Bytes} {place : Nat} (h : place ≤ storage.length) :
    (overwrite storage place data).take (place + data.length) = storage.take place ++ data := by
  refine List.take_left' ?_
  rw [List.length_append, List.length_take, Nat.min_eq_left h]

theorem Valid.capacity_slide (hb : b.Valid) : b.slide.capacity = b.capacity := by
  refine length_overwrite ?_
  rw [hb.length_unread, Nat.zero_add]
  exact hb.size_le

theorem Valid.slide (hb : b.Valid) : b.slide.Valid :=
  ⟨Nat.zero_le _, hb.capacity_slide ▸ hb.size_le⟩

theorem Valid.unread_slide (hb : b.Valid) : b.slide.unread = b.unread := by
  have htake : (overwrite b.storage 0 b.unread).take (0 + b.unread.length) =
      b.storage.take 0 ++ b.unread := take_overwrite (Nat.zero_le _)
  rw [hb.length_unread, Nat.zero_add, List.take_zero, List.nil_append] at htake
  rw [unread_eq]
  exact htake

theorem capacity_grow (b : ByteBuffer) (n : Nat) : (b.grow n).capacity = max b.capacity n := by
  simp only [capacity, grow, List.length_append, List.length_replicate]
  omega

theorem Valid.grow (hb : b.Valid) (n : Nat) : (b.grow n).Valid := by
  refine ⟨hb.first_le, ?_⟩
  rw [capacity_grow]
  exact Nat.le_trans hb.last_le (Nat.le_max_left _ _)

theorem Valid.unread_grow (hb : b.Valid) (n : Nat) : (b.grow n).unread = b.unread := by
  rw [unread_eq, unread_eq, ByteBuffer.grow, List.take_append_of_le_length hb.last_le]

theorem Valid.reserve (hb : b.Valid) (n : Nat) : (b.reserve n).Valid := by
  rw [ByteBuffer.reserve]
  split_ifs
  · exact hb
  · exact hb.slide
  · exact hb.grow _

/-- Room is made around the unread bytes. -/
theorem Valid.unread_reserve (hb : b.Valid) (n : Nat) : (b.reserve n).unread = b.unread := by
  rw [ByteBuffer.reserve]
  split_ifs
  · rfl
  · exact hb.unread_slide
  · exact hb.unread_grow _

/-- The storage is enlarged if it cannot hold the unread bytes and as many more. -/
theorem Valid.capacity_reserve (hb : b.Valid) (n : Nat) :
    (b.reserve n).capacity =
      if b.size + n ≤ b.capacity then b.capacity else max (2 * b.capacity) (b.last + n) := by
  have hfirst := hb.first_le
  have hlast := hb.last_le
  -- Room behind the unread bytes and in front of them is all that they leave.
  have hfits : b.size + n ≤ b.capacity ↔ n ≤ b.first + b.room := by
    rw [size, room]
    omega
  simp only [ByteBuffer.reserve, hfits]
  split
  · rw [if_pos (by omega)]
  · split
    · exact hb.capacity_slide
    · rw [capacity_grow]
      omega

theorem Valid.le_room_reserve (hb : b.Valid) (n : Nat) : n ≤ (b.reserve n).room := by
  have hfirst := hb.first_le
  have hlast := hb.last_le
  rw [ByteBuffer.reserve]
  split_ifs with hroom hslide
  · exact hroom
  · rw [room, hb.capacity_slide]
    change n ≤ b.capacity - (b.last - b.first)
    rw [room] at hslide
    omega
  · rw [room, capacity_grow]
    change n ≤ _ - b.last
    omega

/-! ### Putting bytes in -/

theorem Valid.capacity_fill (hb : b.Valid) (h : data.length ≤ b.room) :
    (b.fill data).capacity = b.capacity := by
  refine length_overwrite ?_
  have := hb.last_le
  rw [room] at h
  rw [capacity] at *
  omega

theorem Valid.fill (hb : b.Valid) (h : data.length ≤ b.room) : (b.fill data).Valid := by
  have hcapacity := hb.capacity_fill h
  have hfirst := hb.first_le
  have hlast := hb.last_le
  rw [room] at h
  refine ⟨?_, ?_⟩
  · change b.first ≤ b.last + data.length
    omega
  · rw [hcapacity]
    change b.last + data.length ≤ b.capacity
    omega

theorem Valid.unread_fill (hb : b.Valid) : (b.fill data).unread = b.unread ++ data := by
  have hfirst : b.first ≤ (b.storage.take b.last).length := by
    rw [List.length_take]
    exact Nat.le_min.2 ⟨hb.first_le, hb.first_le.trans hb.last_le⟩
  rw [unread_eq, unread_eq, ByteBuffer.fill, take_overwrite hb.last_le,
    List.drop_append_of_le_length hfirst]

theorem Valid.append (hb : b.Valid) (data : Bytes) : (b.append data).Valid :=
  (hb.reserve _).fill (hb.le_room_reserve _)

/-- An append puts the bytes behind the unread ones. -/
theorem Valid.unread_append (hb : b.Valid) (data : Bytes) :
    (b.append data).unread = b.unread ++ data := by
  rw [ByteBuffer.append, (hb.reserve _).unread_fill, hb.unread_reserve]

theorem Valid.capacity_append (hb : b.Valid) (data : Bytes) :
    (b.append data).capacity =
      if b.size + data.length ≤ b.capacity then b.capacity
      else max (2 * b.capacity) (b.last + data.length) := by
  rw [ByteBuffer.append, (hb.reserve _).capacity_fill (hb.le_room_reserve _), hb.capacity_reserve]

theorem Valid.size_append (hb : b.Valid) (data : Bytes) :
    (b.append data).size = b.size + data.length := by
  rw [← (hb.append data).length_unread, hb.unread_append, List.length_append, hb.length_unread]

/-- An append enlarges the storage exactly if it cannot hold all that is unread then. -/
theorem Valid.capacity_lt_append_iff (hb : b.Valid) (data : Bytes) :
    b.capacity < (b.append data).capacity ↔ b.capacity < b.size + data.length := by
  have := hb.first_le
  rw [hb.capacity_append, size]
  split <;> omega

theorem Valid.capacity_le_append (hb : b.Valid) (data : Bytes) :
    b.capacity ≤ (b.append data).capacity := by
  rw [hb.capacity_append]
  split <;> omega

/-- A storage that is enlarged is less than twice as large as what is unread then: it was
    too small for that, and so was what stood up to the end of the unread bytes. -/
theorem Valid.capacity_append_le (hb : b.Valid) (data : Bytes) :
    (b.append data).capacity ≤ max b.capacity (2 * (b.append data).size) := by
  have := hb.last_le
  rw [hb.size_append, hb.capacity_append]
  split <;> omega

/-! ### Reading -/

/-- What one read takes of the bytes that there are. -/
def delivered (b : ByteBuffer) (available : Bytes) : Bytes := available.take b.appetite

/-- The buffer with its room filled from what a read takes. -/
def filled (b : ByteBuffer) (available : Bytes) : ByteBuffer :=
  b.fill ((b.delivered available).take b.room)

theorem readFrom_eq (b : ByteBuffer) (available : Bytes) :
    b.readFrom available = ((b.delivered available).length,
      (b.filled available).append ((b.delivered available).drop b.room)) := rfl

theorem Valid.filled (hb : b.Valid) (available : Bytes) : (b.filled available).Valid :=
  hb.fill (List.length_take_le _ _)

theorem Valid.capacity_filled (hb : b.Valid) (available : Bytes) :
    (b.filled available).capacity = b.capacity :=
  hb.capacity_fill (List.length_take_le _ _)

theorem Valid.readFrom (hb : b.Valid) (available : Bytes) : (b.readFrom available).2.Valid :=
  (hb.filled available).append _

/-- A read puts what it takes behind the unread bytes, be it by way of the spill. -/
theorem Valid.unread_readFrom (hb : b.Valid) (available : Bytes) :
    (b.readFrom available).2.unread = b.unread ++ b.delivered available := by
  rw [readFrom_eq, (hb.filled available).unread_append, ByteBuffer.filled, hb.unread_fill,
    List.append_assoc, List.take_append_drop]

theorem Valid.capacity_le_readFrom (hb : b.Valid) (available : Bytes) :
    b.capacity ≤ (b.readFrom available).2.capacity := by
  have hle := (hb.filled available).capacity_le_append ((b.delivered available).drop b.room)
  rwa [hb.capacity_filled available] at hle

theorem Valid.capacity_readFrom_le (hb : b.Valid) (available : Bytes) :
    (b.readFrom available).2.capacity ≤
      max b.capacity (2 * (b.readFrom available).2.size) := by
  have hle := (hb.filled available).capacity_append_le ((b.delivered available).drop b.room)
  rwa [hb.capacity_filled available] at hle

/-! ### Calls -/

/-- A call on a buffer. -/
inductive Call
  | append (data : Bytes)
  | retrieve (n : Nat)
  | retrieveUntil (place : Nat)
  | clear
  | take (n : Nat)
  | takeAll
  | receive (source : Except Nat Bytes)

/-- What a call answers. -/
inductive Answer
  | nothing
  | bytes (taken : Bytes)
  | read (result : Except Nat Nat)

/-- Makes a call. -/
def call (b : ByteBuffer) : Call → Answer × ByteBuffer
  | .append data => (.nothing, b.append data)
  | .retrieve n => (.nothing, b.retrieve n)
  | .retrieveUntil place => (.nothing, b.retrieveUntil place)
  | .clear => (.nothing, b.clear)
  | .take n => (.bytes (b.take n).1, (b.take n).2)
  | .takeAll => (.bytes b.takeAll.1, b.takeAll.2)
  | .receive source => (.read (b.receive source).1, (b.receive source).2)

/-- Makes calls one after the other. -/
def run (b : ByteBuffer) : List Call → List Answer × ByteBuffer
  | [] => ([], b)
  | c :: calls =>
    let (answer, b') := b.call c
    let (answers, b'') := b'.run calls
    (answer :: answers, b'')

/-- What a call may do to a queue of bytes, and answer. A read takes some first bytes of
    those that there are, and puts them in at the back. -/
inductive Serves (queue : Bytes) : Call → Answer → Bytes → Prop
  | append (data : Bytes) : Serves queue (.append data) .nothing (queue ++ data)
  | retrieve (n : Nat) : Serves queue (.retrieve n) .nothing (queue.drop n)
  | retrieveUntil (place : Nat) : Serves queue (.retrieveUntil place) .nothing (queue.drop place)
  | clear : Serves queue .clear .nothing []
  | take (n : Nat) : Serves queue (.take n) (.bytes (queue.take n)) (queue.drop n)
  | takeAll : Serves queue .takeAll (.bytes queue) []
  | failed (number : Nat) :
      Serves queue (.receive (.error number)) (.read (.error number)) queue
  | received (available : Bytes) {n : Nat} (h : n ≤ available.length) :
      Serves queue (.receive (.ok available)) (.read (.ok n)) (queue ++ available.take n)

/-- What calls may do to a queue of bytes, and answer. -/
inductive Served : Bytes → List Call → List Answer → Bytes → Prop
  | nil (queue : Bytes) : Served queue [] [] queue
  | cons {queue queue' queue'' : Bytes} {c : Call} {answer : Answer} {calls : List Call}
      {answers : List Answer} (first : Serves queue c answer queue')
      (rest : Served queue' calls answers queue'') :
      Served queue (c :: calls) (answer :: answers) queue''

theorem Valid.call (hb : b.Valid) (c : Call) : (b.call c).2.Valid := by
  cases c with
  | append data => exact hb.append data
  | retrieve n => exact hb.retrieve n
  | retrieveUntil place => exact hb.retrieve place
  | clear => exact valid_clear b
  | take n => exact hb.retrieve n
  | takeAll => exact hb.retrieve _
  | receive source =>
    cases source with
    | error number => exact hb
    | ok available => exact hb.readFrom available

/-- A call on a valid buffer is one on the queue of its unread bytes. -/
theorem Valid.serves (hb : b.Valid) (c : Call) :
    Serves b.unread c (b.call c).1 (b.call c).2.unread := by
  cases c with
  | append data =>
    have hqueue : (b.call (.append data)).2.unread = b.unread ++ data := hb.unread_append data
    rw [hqueue]
    exact .append data
  | retrieve n =>
    have hqueue : (b.call (.retrieve n)).2.unread = b.unread.drop n := hb.unread_retrieve n
    rw [hqueue]
    exact .retrieve n
  | retrieveUntil place =>
    have hqueue : (b.call (.retrieveUntil place)).2.unread = b.unread.drop place :=
      hb.unread_retrieve place
    rw [hqueue]
    exact .retrieveUntil place
  | clear => exact .clear
  | take n =>
    have hqueue : (b.call (.take n)).2.unread = b.unread.drop n := hb.unread_retrieve n
    rw [hqueue]
    exact .take n
  | takeAll =>
    have htaken : b.takeAll.1 = b.unread := List.take_of_length_le hb.length_unread.le
    have hqueue : b.takeAll.2.unread = [] := by
      rw [takeAll, take, hb.unread_retrieve, ← hb.length_unread, List.drop_length]
    rw [ByteBuffer.call, htaken, hqueue]
    exact .takeAll
  | receive source =>
    cases source with
    | error number => exact .failed number
    | ok available =>
      -- The bytes that were delivered are the first ones that were there.
      have htake : available.take (b.delivered available).length = b.delivered available := by
        rw [delivered, List.length_take, List.take_eq_take_iff]
        omega
      have hqueue : (b.call (.receive (.ok available))).2.unread =
          b.unread ++ b.delivered available := hb.unread_readFrom available
      rw [hqueue, ← htake]
      exact .received available (List.length_take_le' _ _)

/-- No call shrinks the storage. -/
theorem Valid.capacity_le_call (hb : b.Valid) (c : Call) : b.capacity ≤ (b.call c).2.capacity := by
  cases c with
  | append data => exact hb.capacity_le_append data
  | retrieve n => exact Nat.le_of_eq (capacity_retrieve b n).symm
  | retrieveUntil place => exact Nat.le_of_eq (capacity_retrieve b place).symm
  | clear => exact Nat.le_refl _
  | take n => exact Nat.le_of_eq (capacity_retrieve b n).symm
  | takeAll => exact Nat.le_of_eq (capacity_retrieve b _).symm
  | receive source =>
    cases source with
    | error number => exact Nat.le_refl _
    | ok available => exact hb.capacity_le_readFrom available

/-- A call that enlarges the storage leaves more than half as much unread. -/
theorem Valid.capacity_call_le (hb : b.Valid) (c : Call) :
    (b.call c).2.capacity ≤ max b.capacity (2 * (b.call c).2.size) := by
  have hsame : ∀ n, (b.retrieve n).capacity ≤ max b.capacity (2 * (b.retrieve n).size) := fun n =>
    Nat.le_trans (Nat.le_of_eq (capacity_retrieve b n)) (Nat.le_max_left _ _)
  cases c with
  | append data => exact hb.capacity_append_le data
  | retrieve n => exact hsame n
  | retrieveUntil place => exact hsame place
  | clear => exact Nat.le_max_left _ _
  | take n => exact hsame n
  | takeAll => exact hsame _
  | receive source =>
    cases source with
    | error number => exact Nat.le_max_left _ _
    | ok available => exact hb.capacity_readFrom_le available

/-! ### Runs -/

theorem Valid.run (hb : b.Valid) (calls : List Call) : (b.run calls).2.Valid := by
  induction calls generalizing b with
  | nil => exact hb
  | cons c calls ih => exact ih (hb.call c)

theorem Valid.served (hb : b.Valid) (calls : List Call) :
    Served b.unread calls (b.run calls).1 (b.run calls).2.unread := by
  induction calls generalizing b with
  | nil => exact .nil _
  | cons c calls ih => exact .cons (hb.serves c) (ih (hb.call c))

/-- The storage is no larger than at first, or than the double of what was unread at some
    time. -/
theorem Valid.exists_capacity_run_le (hb : b.Valid) (calls : List Call) :
    ∃ earlier, earlier <+: calls ∧
      (b.run calls).2.capacity ≤ max b.capacity (2 * (b.run earlier).2.size) := by
  induction calls generalizing b with
  | nil => exact ⟨[], List.nil_prefix, Nat.le_max_left _ _⟩
  | cons c calls ih =>
    obtain ⟨earlier, hearlier, hle⟩ := ih (hb.call c)
    rcases le_max_iff.1 hle with hle | hle
    · -- The last time that the storage was enlarged is this call, or none.
      exact ⟨[c], List.cons_prefix_cons.2 ⟨rfl, List.nil_prefix⟩,
        hle.trans (hb.capacity_call_le c)⟩
    · exact ⟨c :: earlier, List.cons_prefix_cons.2 ⟨rfl, hearlier⟩, le_max_of_le_right hle⟩

/-- What is known of a buffer of a first size after some calls. -/
structure RefinesQueue (initial : Nat) (calls : List Call) (answers : List Answer)
    (b : ByteBuffer) : Prop where
  /-- Answers and unread bytes are those of a queue that was empty. -/
  served : Served [] calls answers b.unread
  /-- The unread bytes lie within the storage. -/
  first_le_last : b.first ≤ b.last
  last_le_capacity : b.last ≤ b.capacity
  length_unread : b.unread.length = b.size
  /-- The line end found is the first one among the unread bytes, and one is found if
      there is one. -/
  findLineEnd_eq_some_iff (i : Nat) :
    b.findLineEnd = some i ↔
      [13, 10] <+: b.unread.drop i ∧ ∀ j < i, ¬ [13, 10] <+: b.unread.drop j
  findLineEnd_eq_none_iff : b.findLineEnd = none ↔ ¬ [13, 10] <:+: b.unread
  /-- A read takes as much as there is and as fits into the room and the spill. -/
  receive_fst (available : Bytes) :
    (b.receive (.ok available)).1 = .ok (min b.appetite available.length)
  /-- A failed read changes nothing. -/
  receive_error (number : Nat) : b.receive (.error number) = (.error number, b)
  /-- The storage never shrinks, and an append enlarges it only where it is too small. -/
  capacity_le_call (c : Call) : b.capacity ≤ (b.call c).2.capacity
  capacity_lt_append_iff (data : Bytes) :
    b.capacity < (b.append data).capacity ↔ b.capacity < b.size + data.length
  /-- The storage is no larger than the first one, or than the double of what was unread
      at some time. -/
  capacity_le : ∃ earlier, earlier <+: calls ∧
    b.capacity ≤ max initial (2 * ((ofCapacity initial).run earlier).2.size)

/-- A buffer is a queue of bytes, whatever its first size and whatever calls are made. -/
theorem refinesQueue (initial : Nat) (calls : List Call) :
    RefinesQueue initial calls ((ofCapacity initial).run calls).1
      ((ofCapacity initial).run calls).2 := by
  have hfirst := valid_ofCapacity initial
  have hb := hfirst.run calls
  refine {
    served := unread_ofCapacity initial ▸ hfirst.served calls
    first_le_last := hb.first_le
    last_le_capacity := hb.last_le
    length_unread := hb.length_unread
    findLineEnd_eq_some_iff := fun i => ?_
    findLineEnd_eq_none_iff := ?_
    receive_fst := fun available => ?_
    receive_error := fun number => rfl
    capacity_le_call := hb.capacity_le_call
    capacity_lt_append_iff := hb.capacity_lt_append_iff
    capacity_le := ?_ }
  · rw [findLineEnd, Bytes.find?_eq_some_iff]
    refine ⟨fun h => h.2, fun h => ⟨?_, h⟩⟩
    have hlength := h.1.length_le
    rw [List.length_drop, List.length_cons] at hlength
    omega
  · rw [← Bytes.contains_iff_infix, Bytes.contains, Option.not_isSome_iff_eq_none]
    rfl
  · rw [← List.length_take]
    rfl
  · obtain ⟨earlier, hearlier, hle⟩ := hfirst.exists_capacity_run_le calls
    rw [capacity_ofCapacity] at hle
    exact ⟨earlier, hearlier, hle⟩

end PageServer.ByteBuffer
