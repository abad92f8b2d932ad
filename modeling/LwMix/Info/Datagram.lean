import LwMix.Master.CheckIn

/-!
# Datagrams in a buffer

A `recvfrom` puts a datagram over the start of its buffer, cut to the size, and the rest of the
buffer keeps what it had. A failed one changes nothing.
-/

namespace LwMix

/-- The result of a `recvfrom`. -/
inductive RecvFromResult where
  | failed
  | datagram (src : SockAddr) (bytes : List UInt8)
  deriving DecidableEq, Repr

/-- A datagram that is sent to an address. -/
structure Sent where
  dest : SockAddr
  bytes : List UInt8
  deriving DecidableEq, Repr

variable {n : ℕ} {b : Buf n} {d xs : List UInt8} {c : UInt8}

/-- The buffer after the datagram `d` is received. -/
def Buf.recv (b : Buf n) (d : List UInt8) : Buf n :=
  b.overwrite 0 (d.take n) (by rw [List.length_take]; omega)

/-- `recvfrom`: the result, the buffer and `their_addr`. -/
def recvFrom (r : RecvFromResult) (b : Buf n) (theirAddr : SockAddr) : Int × Buf n × SockAddr :=
  match r with
  | .failed => (-1, b, theirAddr)
  | .datagram src d => ((d.take n).length, b.recv d, src)

/-- A datagram that fits is followed by the earlier content of the buffer. -/
theorem recv_bytes (h : d.length ≤ n) : (b.recv d).bytes = d ++ b.bytes.drop d.length := by
  rw [Buf.recv, Buf.overwrite_zero_bytes, List.take_of_length_le h]

/-- The first byte of a datagram is the first byte of the buffer. -/
theorem recv_cons (hn : 0 < n) : ∃ rest, (b.recv (c :: xs)).bytes = c :: rest := by
  obtain ⟨k, rfl⟩ : ∃ k, n = k + 1 := ⟨n - 1, by omega⟩
  exact ⟨_, by rw [Buf.recv, Buf.overwrite_zero_bytes, List.take_succ_cons, List.cons_append]⟩

end LwMix
