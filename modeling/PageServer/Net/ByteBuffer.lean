import PageServer.Bytes

/-!
# Byte buffers

A byte buffer is a queue of bytes: they are put in at the back and taken out at
the front. The unread bytes lie in one piece of a storage, which is reused
before it grows: an append first fills the room behind the unread bytes, then
slides these to the front if that makes room enough, and only then enlarges the
storage, at least to the double.

* `ByteBuffer.unread`: the bytes of the queue;
* `ByteBuffer.append`, `ByteBuffer.retrieve`: the two ends of the queue;
* `ByteBuffer.receive`: takes in what one read from a source delivers, if it
  does not fail.
-/

namespace PageServer

/-- A storage of which the bytes from `first` up to `last` are unread. -/
structure ByteBuffer where
  storage : Bytes
  first : Nat := 0
  last : Nat := 0

namespace ByteBuffer

/-- The storage of a buffer for which no size is asked. -/
def usualCapacity : Nat := 1024

/-- The most that a read takes beyond the room of the buffer. -/
def spill : Nat := 65536

/-- An empty buffer. -/
def ofCapacity (n : Nat) : ByteBuffer := { storage := List.replicate n 0 }

/-- How many bytes the storage has. -/
def capacity (b : ByteBuffer) : Nat := b.storage.length

/-- How many bytes are unread. -/
def size (b : ByteBuffer) : Nat := b.last - b.first

/-- The unread bytes. -/
def unread (b : ByteBuffer) : Bytes := (b.storage.drop b.first).take b.size

/-- The room behind the unread bytes. -/
def room (b : ByteBuffer) : Nat := b.capacity - b.last

/-- The place of the first CR LF among the unread bytes. -/
def findLineEnd (b : ByteBuffer) : Option Nat := Bytes.find? [13, 10] b.unread

/-- The buffer with nothing unread. -/
def clear (b : ByteBuffer) : ByteBuffer := { b with first := 0, last := 0 }

/-- Takes `n` bytes off the front, or all if there are no more. -/
def retrieve (b : ByteBuffer) (n : Nat) : ByteBuffer :=
  if b.size ≤ n then b.clear else { b with first := b.first + n }

/-- Takes off what stands in front of a place, which is told as
    `findLineEnd` tells it. -/
def retrieveUntil (b : ByteBuffer) (place : Nat) : ByteBuffer := b.retrieve place

/-- Takes `n` bytes off the front, or all if there are no more, and returns
    them. -/
def take (b : ByteBuffer) (n : Nat) : Bytes × ByteBuffer := (b.unread.take n, b.retrieve n)

/-- Takes all bytes out. -/
def takeAll (b : ByteBuffer) : Bytes × ByteBuffer := b.take b.size

/-- The storage with bytes written over it from a place on. -/
def overwrite (storage : Bytes) (place : Nat) (data : Bytes) : Bytes :=
  storage.take place ++ data ++ storage.drop (place + data.length)

/-- The buffer with the unread bytes at the front of its storage. -/
def slide (b : ByteBuffer) : ByteBuffer :=
  { storage := overwrite b.storage 0 b.unread, first := 0, last := b.size }

/-- The buffer with a storage enlarged to `n` bytes. -/
def grow (b : ByteBuffer) (n : Nat) : ByteBuffer :=
  { b with storage := b.storage ++ List.replicate (n - b.capacity) 0 }

/-- The buffer with room for `n` more bytes. -/
def reserve (b : ByteBuffer) (n : Nat) : ByteBuffer :=
  if n ≤ b.room then b
  else if n ≤ b.first + b.room then b.slide
  else b.grow (max (2 * b.capacity) (b.last + n))

/-- The buffer with bytes written into its room, which must be large enough. -/
def fill (b : ByteBuffer) (data : Bytes) : ByteBuffer :=
  { b with storage := overwrite b.storage b.last data, last := b.last + data.length }

/-- Puts bytes in at the back. -/
def append (b : ByteBuffer) (data : Bytes) : ByteBuffer := (b.reserve data.length).fill data

/-- The most bytes that one read takes: those that fit, and the spill if less
    than that fits. -/
def appetite (b : ByteBuffer) : Nat := if b.room < spill then b.room + spill else b.room

/-- Takes in one read from a source that has `available` bytes to give. What
    does not fit is appended afterwards. -/
def readFrom (b : ByteBuffer) (available : Bytes) : Nat × ByteBuffer :=
  let data := available.take b.appetite
  (data.length, (b.fill (data.take b.room)).append (data.drop b.room))

/-- One read from a source, which has bytes to give or fails with an error
    number of the system. A failed read leaves the buffer as it is. -/
def receive (b : ByteBuffer) (source : Except Nat Bytes) : Except Nat Nat × ByteBuffer :=
  match source with
  | .error number => (.error number, b)
  | .ok available =>
    let (n, b') := b.readFrom available
    (.ok n, b')

end ByteBuffer

end PageServer
