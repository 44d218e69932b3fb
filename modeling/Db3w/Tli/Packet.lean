/-
Packets between a client and the engine: a header of fixed size with the registers in network order,
and up to a fixed number of bytes behind it. What is longer is sent in several packets.
-/
import Db3w.Lib.Bytes

namespace Db3w.Tli

open Bytes

abbrev HBNORMAL : Nat := 0
abbrev HBERROR : Nat := 1
abbrev USRNORMAL : Nat := 2
abbrev PKTHDRSZ : Nat := 64
abbrev UPSTREAM : Nat := 0xffd
abbrev DOWNSTREAM : Nat := 0xffe
abbrev TLIPACKETSIZE : Nat := 4096
abbrev TRANSBUFSZ : Nat := TLIPACKETSIZE - PKTHDRSZ
abbrev DBE_LOGOUT : Nat := 0x7001

abbrev FLAGS_OFFSET : Nat := 0
abbrev AX_OFFSET : Nat := 4
abbrev CX_OFFSET : Nat := 8

/-! ## Numbers in network order -/

/-- The four bytes of `htonl(n)`. -/
def netWord (n : Nat) : List UInt8 := (word 4 n).reverse

/-- `ntohl` of the four bytes at an offset. -/
def netRead (off : Nat) (buf : List UInt8) : Nat := value (readAt off 4 buf).reverse

/-- A number of 32 bits as an `int`. -/
def int32 (n : Int) : Int := n.bmod (2 ^ 32)

/-! ## Headers -/

/-- The registers and flags of a header, and the bytes behind them that nothing reads. -/
structure Hdr where
  flags : UInt32
  ax : UInt32
  cx : UInt32
  dx : UInt32
  ex : UInt32
  fx : UInt32
  unused : List UInt8
  full : unused.length = PKTHDRSZ - 24

/-- The bytes of a header. -/
def Hdr.bytes (h : Hdr) : List UInt8 :=
  netWord h.flags.toNat ++ (netWord h.ax.toNat ++ (netWord h.cx.toNat ++ (netWord h.dx.toNat ++ (netWord h.ex.toNat ++
    (netWord h.fx.toNat ++ h.unused)))))

/-- A header with some bytes. -/
def Hdr.packet (h : Hdr) (data : List UInt8) : List UInt8 := h.bytes ++ data

/-- `PKT_CX_PUT`. -/
def Hdr.putCx (h : Hdr) (cx : Nat) : Hdr := { h with cx := UInt32.ofNat cx }

/-- Received bytes in front of what a buffer held. -/
def fill (buf got : List UInt8) : List UInt8 := got ++ buf.drop got.length

/-- How many bytes of a payload go into the next packet. -/
def pieceLen (n : Nat) : Nat := if n > TRANSBUFSZ then TRANSBUFSZ else n

section Header

variable (h : Hdr) (data : List UInt8) {n : Nat}

@[simp] theorem length_netWord (n : Nat) : (netWord n).length = 4 := by
  rw [netWord, List.length_reverse, length_word]

theorem length_bytes : h.bytes.length = PKTHDRSZ := by
  simp only [Hdr.bytes, List.length_append, length_netWord, h.full]
  decide

theorem length_packet : (h.packet data).length = PKTHDRSZ + data.length := by
  rw [Hdr.packet, List.length_append, length_bytes]

/-- The bytes behind the header. -/
theorem readAt_packet (rest : List UInt8) : readAt PKTHDRSZ data.length (h.packet data ++ rest) = data := by
  rw [readAt, Hdr.packet, List.append_assoc, List.drop_left' (length_bytes h), List.take_left' rfl]

/-- A number is read back from behind `off` bytes. -/
theorem netRead_append {off : Nat} {pre post : List UInt8} (hpre : pre.length = off) (hn : n < 2 ^ 32) :
    netRead off (pre ++ (netWord n ++ post)) = n := by
  unfold netRead readAt
  rw [List.drop_left' hpre, List.take_left' (length_netWord n), netWord, List.reverse_reverse, value_word]
  exact Nat.mod_eq_of_lt (hn.trans_le (by decide))

/-- A packet, word by word. -/
theorem packet_eq : h.packet data = netWord h.flags.toNat ++ (netWord h.ax.toNat ++ (netWord h.cx.toNat ++
    (netWord h.dx.toNat ++ (netWord h.ex.toNat ++ (netWord h.fx.toNat ++ (h.unused ++ data)))))) := by
  simp [Hdr.packet, Hdr.bytes]

theorem netRead_flags : netRead FLAGS_OFFSET (h.packet data) = h.flags.toNat := by
  rw [packet_eq, ← List.nil_append (netWord h.flags.toNat ++ _)]
  exact netRead_append rfl h.flags.toNat_lt

theorem netRead_ax : netRead AX_OFFSET (h.packet data) = h.ax.toNat := by
  rw [packet_eq]
  exact netRead_append (length_netWord _) h.ax.toNat_lt

theorem netRead_cx : netRead CX_OFFSET (h.packet data) = h.cx.toNat := by
  rw [packet_eq, ← List.append_assoc]
  exact netRead_append (by simp) h.cx.toNat_lt

/-- Bytes that are read lie in front of those that come later. -/
theorem netRead_take {off k : Nat} (hk : off + 4 ≤ k) (buf : List UInt8) : netRead off (buf.take k) = netRead off buf := by
  unfold netRead readAt
  rw [List.drop_take, List.take_take, Nat.min_eq_left (by omega)]

theorem netRead_left {off : Nat} {a : List UInt8} (ha : off + 4 ≤ a.length) (b : List UInt8) : netRead off (a ++ b) = netRead off a := by
  rw [← netRead_take ha (a ++ b), List.take_left]

theorem int32_of_lt {n : Nat} (hn : n < 2 ^ 31) : int32 n = n := by
  unfold int32
  rw [Int.bmod_eq_of_le] <;> omega

theorem pieceLen_le (n : Nat) : pieceLen n ≤ n := by
  unfold pieceLen
  split <;> omega

theorem pieceLen_pos {n : Nat} (hn : 0 < n) : 0 < pieceLen n := by
  have hbuf : 0 < TRANSBUFSZ := by decide
  unfold pieceLen
  split <;> omega

/-- How many bytes the client asks for when so many are left. -/
theorem ask_eq (n : Nat) : (if n > TRANSBUFSZ then TLIPACKETSIZE else n + PKTHDRSZ) = PKTHDRSZ + pieceLen n := by
  unfold pieceLen
  split
  · rfl
  · exact Nat.add_comm _ _

end Header

end Db3w.Tli
