/-
What the engine takes from a client. It asks for a number of bytes, and stores the pieces that come
until it has them. The length of a piece is what its header says; it is compared with the length of the
packet, but never with 0.
-/
import Db3w.Lib.Runs
import Db3w.Tli.Packet

namespace Db3w.Tli

open Bytes

/-! ## The engine -/

/-- The loop waits for another packet, has all bytes, gives up, or has left its buffers. -/
inductive Status where
  | more
  | done
  | failed
  | overrun
  deriving DecidableEq

/-- The loop of `dbesrv_dispatch` that receives: what is still to come, the buffer, and the pieces that were copied, each
with the length that its header gives and the bytes that were received. -/
structure Down where
  xlen : Int
  tbuf : List UInt8
  pieces : List (Int × List UInt8)
  status : Status

/-- The bytes that a client has to send. -/
def Down.start (xlen : Nat) (tbuf : List UInt8) : Down := ⟨xlen, tbuf, [], if 0 < xlen then .more else .done⟩

/-- The bytes that a receive returns: no more than were asked for. -/
def Down.got (s : Down) (bs : List UInt8) : List UInt8 :=
  bs.take ((if s.xlen > TRANSBUFSZ then TRANSBUFSZ else s.xlen.toNat) + PKTHDRSZ)

/-- What the header in the buffer says about the length of the piece. -/
def Down.len2 (s : Down) (bs : List UInt8) : Int := int32 (netRead CX_OFFSET (fill s.tbuf (s.got bs)))

/-- The packet in the buffer is one of a client that sends data. -/
def Down.Expected (s : Down) (bs : List UInt8) : Prop :=
  netRead FLAGS_OFFSET (fill s.tbuf (s.got bs)) = HBNORMAL ∧ netRead AX_OFFSET (fill s.tbuf (s.got bs)) = DOWNSTREAM

instance (s : Down) (bs : List UInt8) : Decidable (s.Expected bs) := inferInstanceAs (Decidable (_ ∧ _))

/-- A piece of `len2` bytes is copied from the buffer. -/
def Down.copy (s : Down) (len2 : Int) (got tbuf : List UInt8) : Down where
  xlen := s.xlen - len2
  tbuf
  pieces := s.pieces ++ [(len2, got)]
  status :=
    -- a length that the buffer does not have
    if len2 < 0 ∨ TRANSBUFSZ < len2 then .overrun
    else if 0 < s.xlen - len2 then .more
    else .done

/-- One turn of the loop; `none` is a receive that fails. -/
def Down.recv (s : Down) (r : Option (List UInt8)) : Down :=
  if s.status ≠ .more then s
  else
    match r with
    | none => { s with status := .failed }
    | some bs =>
      if ((s.got bs).length : Int) < int32 (PKTHDRSZ + s.len2 bs) ∨ ¬s.Expected bs then
        { s with tbuf := fill s.tbuf (s.got bs), status := .failed }
      else s.copy (s.len2 bs) (s.got bs) (fill s.tbuf (s.got bs))

/-- The bytes that were stored. -/
def Down.stored (s : Down) : List UInt8 := s.pieces.flatMap fun p => (p.2.drop PKTHDRSZ).take p.1.toNat

/-! ## The client -/

/-- The loop of `hb_response` that sends. -/
def sendDown (h : Hdr) (data : List UInt8) : List (List UInt8) :=
  if _hd : data = [] then []
  else
    let size := if data.length > TRANSBUFSZ then TRANSBUFSZ else data.length
    let h := { h.putCx size with ax := UInt32.ofNat DOWNSTREAM }
    h.packet (data.take size) :: sendDown h (data.drop size)
termination_by data.length
decreasing_by
  have hpos := List.length_pos_iff.mpr _hd
  have hbuf : 0 < TRANSBUFSZ := by decide
  rw [List.length_drop]
  split <;> omega

/-- The header with which the engine asks for `xlen` bytes. -/
def downHdr (h : Hdr) (xlen : Nat) : Hdr := { h.putCx (2 ^ 32 - xlen) with flags := UInt32.ofNat HBNORMAL }

/-! ## What is stored -/

/-- Only pieces that were received are stored, and no more than was asked for; there are finitely many that are not empty,
and the loop ends with all bytes or with an error. -/
structure Sound (xlen : Nat) (s : Down) : Prop where
  nonneg : ∀ p ∈ s.pieces, 0 ≤ p.1
  received : ∀ p ∈ s.pieces, PKTHDRSZ + p.1 ≤ p.2.length
  sum_le : (s.pieces.map Prod.fst).sum ≤ xlen
  finite : (s.pieces.filter fun p => p.1 ≠ 0).length ≤ xlen
  more : s.status = .more → (s.pieces.filter fun p => p.1 ≠ 0).length < xlen
  done : s.status = .done → (s.pieces.map Prod.fst).sum = xlen

/-- The client has sent all bytes, and they are stored. -/
def Stored (s : Down) (data : List UInt8) : Prop := s.status = .done ∧ s.stored = data

/-- A packet whose header has a negative length, or one so great that the length of the packet is no `int`. -/
def Bad (s : Down) (r : Option (List UInt8)) : Prop :=
  ∃ bs, r = some bs ∧ s.status = .more ∧ s.Expected bs ∧
    ((s.len2 bs < 0 ∧ PKTHDRSZ + s.len2 bs ≤ (s.got bs).length) ∨ 2 ^ 31 ≤ PKTHDRSZ + s.len2 bs)

instance decidableBad (s : Down) : ∀ r, Decidable (Bad s r)
  | none => isFalse fun ⟨_, h, _⟩ => nomatch h
  | some bs => decidable_of_iff (s.status = .more ∧ s.Expected bs ∧
      ((s.len2 bs < 0 ∧ PKTHDRSZ + s.len2 bs ≤ (s.got bs).length) ∨ 2 ^ 31 ≤ PKTHDRSZ + s.len2 bs))
    ⟨fun h => ⟨bs, rfl, h⟩, fun ⟨_, h, h'⟩ => Option.some.inj h ▸ h'⟩

section Down

variable {s : Down} {r : Option (List UInt8)} {bs : List UInt8} {xlen : Nat}

theorem int32_bounds (n : Int) : -2 ^ 31 ≤ int32 n ∧ int32 n < 2 ^ 31 := by
  unfold int32
  have hlo := Int.le_bmod (x := n) (m := 2 ^ 32) (by decide)
  have hhi := Int.bmod_lt (x := n) (m := 2 ^ 32) (by decide)
  constructor
  · omega
  · omega

theorem int32_self {n : Int} (hlo : -2 ^ 31 ≤ n) (hhi : n < 2 ^ 31) : int32 n = n := by
  unfold int32
  rw [Int.bmod_eq_of_le] <;> omega

/-- The test of the loop lets through what it should, and bad lengths. -/
theorem passes_iff (s : Down) (bs : List UInt8) : ¬((s.got bs).length : Int) < int32 (PKTHDRSZ + s.len2 bs) ↔
    PKTHDRSZ + s.len2 bs ≤ (s.got bs).length ∨ 2 ^ 31 ≤ PKTHDRSZ + s.len2 bs := by
  obtain ⟨hlo, hhi⟩ := int32_bounds (netRead CX_OFFSET (fill s.tbuf (s.got bs)))
  change -2 ^ 31 ≤ s.len2 bs at hlo
  change s.len2 bs < 2 ^ 31 at hhi
  have hhead : (PKTHDRSZ : Int) = 64 := rfl
  rw [not_lt]
  by_cases hbig : 2 ^ 31 ≤ PKTHDRSZ + s.len2 bs
  · -- the sum becomes negative
    have hneg : int32 (PKTHDRSZ + s.len2 bs) = PKTHDRSZ + s.len2 bs - 2 ^ 32 := by
      have h := int32_self (n := PKTHDRSZ + s.len2 bs - 2 ^ 32) (by omega) (by omega)
      unfold int32 at h ⊢
      rw [← h]
      exact (Int.sub_bmod_right _ (2 ^ 32)).symm
    rw [hneg]
    exact iff_of_true (by omega) (.inr hbig)
  · rw [int32_self (by omega) (by omega)]
    constructor
    · exact .inl
    · exact fun h => h.resolve_right hbig

/-- No more is received than was asked for. -/
theorem length_got (s : Down) (bs : List UInt8) : (s.got bs).length ≤ TRANSBUFSZ + PKTHDRSZ ∧ (s.got bs).length ≤ s.xlen.toNat + PKTHDRSZ := by
  have hle : (s.got bs).length ≤ (if s.xlen > TRANSBUFSZ then TRANSBUFSZ else s.xlen.toNat) + PKTHDRSZ := List.length_take_le ..
  split at hle
  · exact ⟨hle, by omega⟩
  · exact ⟨by omega, hle⟩

theorem recv_pieces (s : Down) (r : Option (List UInt8)) : s.pieces <+: (s.recv r).pieces := by
  unfold Down.recv
  split
  · exact List.prefix_rfl
  · split
    · exact List.prefix_rfl
    · split
      · exact List.prefix_rfl
      · exact List.prefix_append ..

/-- A bad packet is copied from. -/
theorem recv_bad {s : Down} {r : Option (List UInt8)} (h : Bad s r) :
    ∃ p ∈ (s.recv r).pieces, ¬(0 ≤ p.1 ∧ PKTHDRSZ + p.1 ≤ p.2.length) := by
  obtain ⟨bs, rfl, hmore, hexp, hbad⟩ := h
  have hpass : ¬(((s.got bs).length : Int) < int32 (PKTHDRSZ + s.len2 bs) ∨ ¬s.Expected bs) := by
    rintro (hlt | hne)
    · refine absurd hlt ((passes_iff s bs).mpr ?_)
      exact hbad.imp And.right id
    · exact hne hexp
  refine ⟨(s.len2 bs, s.got bs), ?_, ?_⟩
  · unfold Down.recv
    rw [if_neg (not_not.mpr hmore)]
    dsimp only
    rw [if_neg hpass]
    exact List.mem_append_right _ (List.mem_singleton.mpr rfl)
  · rintro ⟨hpos, hle⟩
    dsimp only at hpos hle
    have hbuf : TRANSBUFSZ + PKTHDRSZ < 2 ^ 31 := by decide
    have hgot := (length_got s bs).1
    rcases hbad with ⟨hneg, -⟩ | hbig
    · omega
    · omega

/-- What holds while no bad packet has come. -/
structure DownInv (xlen : Nat) (s : Down) : Prop where
  nonneg : ∀ p ∈ s.pieces, 0 ≤ p.1
  received : ∀ p ∈ s.pieces, PKTHDRSZ + p.1 ≤ p.2.length
  left : s.xlen = xlen - (s.pieces.map Prod.fst).sum
  xlen_nonneg : 0 ≤ s.xlen
  more : s.status = .more → 0 < s.xlen
  done : s.status = .done → s.xlen = 0

theorem downInv_start (xlen : Nat) (tbuf : List UInt8) : DownInv xlen (.start xlen tbuf) where
  nonneg := by simp [Down.start]
  received := by simp [Down.start]
  left := by simp [Down.start]
  xlen_nonneg := by simp [Down.start]
  more := by
    unfold Down.start
    split <;> simp [*]
  done := by
    unfold Down.start
    split <;> simp_all

theorem DownInv.copy (hi : DownInv xlen s) {n : Int} {got : List UInt8} (hpos : 0 ≤ n) (hlen : PKTHDRSZ + n ≤ got.length)
    (hgot : got.length ≤ s.xlen.toNat + PKTHDRSZ) (tbuf : List UInt8) : DownInv xlen (s.copy n got tbuf) := by
  have hleft := hi.xlen_nonneg
  have hsum : ((s.pieces ++ [(n, got)]).map Prod.fst).sum = (s.pieces.map Prod.fst).sum + n := by
    simp
  have hall : ∀ p ∈ s.pieces ++ [(n, got)], 0 ≤ p.1 ∧ PKTHDRSZ + p.1 ≤ p.2.length := by
    intro p hp
    rcases List.mem_append.mp hp with hp | hp
    · exact ⟨hi.nonneg p hp, hi.received p hp⟩
    · rw [List.mem_singleton.mp hp]
      exact ⟨hpos, hlen⟩
  constructor
  case nonneg => exact fun p hp => (hall p hp).1
  case received => exact fun p hp => (hall p hp).2
  case left =>
    show s.xlen - n = _
    unfold Down.copy
    rw [hsum, hi.left]
    omega
  case xlen_nonneg =>
    show 0 ≤ s.xlen - n
    omega
  case more =>
    intro h
    unfold Down.copy at h ⊢
    dsimp only at h ⊢
    split_ifs at h with h1 h2
    exact h2
  case done =>
    intro h
    unfold Down.copy at h ⊢
    dsimp only at h ⊢
    split_ifs at h with h1 h2
    omega

theorem DownInv.failed (hi : DownInv xlen s) (tbuf : List UInt8) : DownInv xlen { s with tbuf, status := .failed } :=
  ⟨hi.nonneg, hi.received, hi.left, hi.xlen_nonneg, (fun h => nomatch h), fun h => nomatch h⟩

/-- A packet that is not bad keeps it. -/
theorem DownInv.recv (hi : DownInv xlen s) (hgood : ¬Bad s r) : DownInv xlen (s.recv r) := by
  unfold Down.recv
  by_cases hmore : s.status = .more
  · rw [if_neg (not_not.mpr hmore)]
    cases r with
    | none => exact hi.failed s.tbuf
    | some bs =>
      dsimp only
      split
      · exact hi.failed _
      · rename_i hpass
        rw [not_or, not_not, passes_iff] at hpass
        obtain ⟨hlen, hexp⟩ := hpass
        have hlen := hlen.resolve_right fun h => hgood ⟨bs, rfl, hmore, hexp, .inr h⟩
        have hpos : 0 ≤ s.len2 bs := by
          by_contra hneg
          exact hgood ⟨bs, rfl, hmore, hexp, .inl ⟨not_le.mp hneg, hlen⟩⟩
        exact hi.copy hpos hlen (length_got s bs).2 _
  · rw [if_pos hmore]
    exact hi

/-- Pieces that are not empty have at least one byte each. -/
theorem filter_le_sum {l : List (Int × List UInt8)} (h : ∀ p ∈ l, 0 ≤ p.1) : ((l.filter fun p => p.1 ≠ 0).length : Int) ≤ (l.map Prod.fst).sum := by
  induction l with
  | nil => exact le_rfl
  | cons p l ih =>
    have hp := h p List.mem_cons_self
    have hl := ih fun q hq => h q (List.mem_cons_of_mem _ hq)
    rw [List.filter_cons, List.map_cons, List.sum_cons]
    split
    · rename_i hne
      rw [decide_eq_true_eq] at hne
      rw [List.length_cons]
      push_cast
      omega
    · omega

theorem DownInv.sound (hi : DownInv xlen s) : Sound xlen s := by
  have hcount := filter_le_sum hi.nonneg
  have hleft := hi.left
  have hpos := hi.xlen_nonneg
  refine ⟨hi.nonneg, hi.received, by omega, by omega, fun hmore => ?_, fun hdone => ?_⟩
  · have := hi.more hmore
    omega
  · have := hi.done hdone
    omega

/-- Whatever comes, the pieces are sound if and only if no bad packet is among what comes. -/
theorem sound_iff (rs : List (Option (List UInt8))) (hi : DownInv xlen s) :
    Sound xlen (rs.foldl Down.recv s) ↔ Runs.Along Down.recv (fun s r => ¬Bad s r) rs s := by
  constructor
  · intro hs
    induction rs generalizing s with
    | nil => trivial
    | cons r rs ih =>
      have hgood : ¬Bad s r := by
        intro hbad
        obtain ⟨p, hp, hno⟩ := recv_bad hbad
        have hpre : ∀ (rs : List (Option (List UInt8))) (s : Down), s.pieces <+: (rs.foldl Down.recv s).pieces := by
          intro rs
          induction rs with
          | nil => exact fun s => List.prefix_rfl
          | cons r rs ih => exact fun s => (recv_pieces s r).trans (ih (s.recv r))
        have hlast := (hpre rs (s.recv r)).subset hp
        exact hno ⟨hs.nonneg p hlast, hs.received p hlast⟩
      exact ⟨hgood, ih (hi.recv hgood) hs⟩
  · exact fun h => (h.inv (I := DownInv xlen) (fun s r hi hgood => hi.recv hgood) hi).sound

theorem sendDown_nil (h : Hdr) : sendDown h [] = [] := by
  rw [sendDown]
  exact dif_pos rfl

/-- The header of a packet of a client. -/
def sendHdr (h : Hdr) (n : Nat) : Hdr := { h.putCx (pieceLen n) with ax := UInt32.ofNat DOWNSTREAM }

theorem sendDown_cons (h : Hdr) {data : List UInt8} (hd : data ≠ []) : sendDown h data =
    (sendHdr h data.length).packet (data.take (pieceLen data.length)) :: sendDown (sendHdr h data.length) (data.drop (pieceLen data.length)) := by
  rw [sendDown, dif_neg hd]
  rfl

/-- The engine takes a packet of a client as it was meant. -/
theorem recv_packet {h : Hdr} (hflags : h.flags.toNat = HBNORMAL) {data : List UInt8} (hmore : s.status = .more) (hx : s.xlen = data.length)
    (hpos : 0 < data.length) (hmax : data.length < 2 ^ 31) :
    ∃ tbuf, s.recv (some ((sendHdr h data.length).packet (data.take (pieceLen data.length)))) =
      s.copy (pieceLen data.length) ((sendHdr h data.length).packet (data.take (pieceLen data.length))) tbuf := by
  have hle := pieceLen_le data.length
  have hlen : ((sendHdr h data.length).packet (data.take (pieceLen data.length))).length = PKTHDRSZ + pieceLen data.length := by
    rw [length_packet, List.length_take, Nat.min_eq_left hle]
  have hgot : s.got ((sendHdr h data.length).packet (data.take (pieceLen data.length))) =
      (sendHdr h data.length).packet (data.take (pieceLen data.length)) := by
    refine List.take_of_length_le ?_
    rw [hlen, hx]
    unfold pieceLen
    split <;> split <;> omega
  have hread : ∀ {off : Nat}, off ≤ CX_OFFSET → netRead off (fill s.tbuf ((sendHdr h data.length).packet (data.take (pieceLen data.length)))) =
      netRead off ((sendHdr h data.length).packet (data.take (pieceLen data.length))) := by
    intro off hoff
    have hhdr : off + 4 ≤ PKTHDRSZ := le_trans (Nat.add_le_add_right hoff 4) (by decide)
    exact netRead_left (by rw [hlen]; omega) _
  have hlen2 : s.len2 ((sendHdr h data.length).packet (data.take (pieceLen data.length))) = pieceLen data.length := by
    unfold Down.len2
    rw [hgot, hread le_rfl, netRead_cx]
    show int32 (UInt32.ofNat (pieceLen data.length)).toNat = _
    rw [UInt32.toNat_ofNat', Nat.mod_eq_of_lt (by omega), int32_of_lt (by omega)]
  have hax : (UInt32.ofNat DOWNSTREAM).toNat = DOWNSTREAM := by decide
  have hexp : s.Expected ((sendHdr h data.length).packet (data.take (pieceLen data.length))) := by
    unfold Down.Expected
    rw [hgot, hread (by decide), hread (by decide), netRead_flags, netRead_ax]
    exact ⟨hflags, hax⟩
  refine ⟨fill s.tbuf ((sendHdr h data.length).packet (data.take (pieceLen data.length))), ?_⟩
  unfold Down.recv
  rw [if_neg (not_not.mpr hmore)]
  dsimp only
  rw [if_neg, hlen2, hgot]
  rw [not_or, not_not, passes_iff, hlen2, hgot, hlen]
  exact ⟨.inl (by push_cast; exact le_rfl), hexp⟩

/-- What a client sends is stored. -/
theorem stored_sendDown {h : Hdr} (hflags : h.flags.toNat = HBNORMAL) {data : List UInt8} (hmore : s.status = .more)
    (hx : s.xlen = data.length) (hpos : 0 < data.length) (hmax : data.length < 2 ^ 31) :
    Stored (((sendDown h data).map some).foldl Down.recv s) (s.stored ++ data) := by
  induction hn : data.length using Nat.strong_induction_on generalizing data s h with
  | _ n ih =>
    subst hn
    have hle := pieceLen_le data.length
    have hppos := pieceLen_pos hpos
    obtain ⟨tbuf, hrecv⟩ := recv_packet hflags hmore hx hpos hmax
    rw [sendDown_cons h (List.length_pos_iff.mp hpos), List.map_cons, List.foldl_cons, hrecv]
    generalize hpkt : (sendHdr h data.length).packet (data.take (pieceLen data.length)) = pkt at *
    have hstored : (s.copy (pieceLen data.length) pkt tbuf).stored = s.stored ++ data.take (pieceLen data.length) := by
      have hpiece : (pkt.drop PKTHDRSZ).take (pieceLen data.length) = data.take (pieceLen data.length) := by
        rw [← hpkt, Hdr.packet, List.drop_left' (length_bytes _), List.take_take, Nat.min_self]
      unfold Down.stored Down.copy
      rw [List.flatMap_append, List.flatMap_singleton]
      show _ ++ (pkt.drop PKTHDRSZ).take ((pieceLen data.length : Nat) : Int).toNat = _
      rw [Int.toNat_natCast, hpiece]
    have hdrop : (data.drop (pieceLen data.length)).length = data.length - pieceLen data.length := List.length_drop ..
    have hsmall : ¬((pieceLen data.length : Int) < 0 ∨ (TRANSBUFSZ : Int) < pieceLen data.length) := by
      unfold pieceLen
      split <;> omega
    by_cases hlast : 0 < data.length - pieceLen data.length
    · have hmore' : (s.copy (pieceLen data.length) pkt tbuf).status = .more := by
        unfold Down.copy
        rw [if_neg hsmall, if_pos (by omega)]
      have hx' : (s.copy (pieceLen data.length) pkt tbuf).xlen = (data.drop (pieceLen data.length)).length := by
        show s.xlen - pieceLen data.length = _
        rw [hdrop, hx]
        omega
      have hflags' : (sendHdr h data.length).flags.toNat = HBNORMAL := hflags
      have hnext := ih (data.drop (pieceLen data.length)).length (by omega) hflags' hmore' hx' (by omega) (by omega) rfl
      rwa [hstored, List.append_assoc, List.take_append_drop] at hnext
    · have hnil : data.drop (pieceLen data.length) = [] := List.length_eq_zero_iff.mp (by omega)
      have hall : data.take (pieceLen data.length) = data := by
        conv_rhs => rw [← List.take_append_drop (pieceLen data.length) data]
        rw [hnil, List.append_nil]
      rw [hnil, sendDown_nil]
      refine ⟨?_, ?_⟩
      · show (s.copy (pieceLen data.length) pkt tbuf).status = .done
        unfold Down.copy
        rw [if_neg hsmall, if_neg (by omega)]
      · show (s.copy (pieceLen data.length) pkt tbuf).stored = _
        rw [hstored, hall]

/-- **The engine stores no more than it asked for**, whatever a client sends, as long as no header has a length that is negative,
or so great that the length of the packet is no `int`; and it stores what a client sends that keeps to the rules. -/
theorem stored_iff (hdr : Hdr) (tbuf data : List UInt8) (hpos : 0 < data.length) (hmax : data.length < 2 ^ 31)
    (rs : List (Option (List UInt8))) :
    (Sound data.length (rs.foldl Down.recv (.start data.length tbuf)) ∧
      Stored (((sendDown (downHdr hdr data.length) data).map some).foldl Down.recv (.start data.length tbuf)) data) ↔
      Runs.Along Down.recv (fun s r => ¬Bad s r) rs (.start data.length tbuf) := by
  have hstored : Stored _ ((Down.start data.length tbuf).stored ++ data) :=
    stored_sendDown (h := downHdr hdr data.length) rfl (if_pos hpos) rfl hpos hmax
  rw [← sound_iff rs (downInv_start data.length tbuf)]
  exact and_iff_left hstored

end Down

/-! ## A negative length -/

/-- A packet whose header has a length. -/
def downPacket (len : UInt32) (data : List UInt8) : List UInt8 :=
  (⟨0, UInt32.ofNat DOWNSTREAM, len, 0, 0, 0, List.replicate 40 0, rfl⟩ : Hdr).packet data

/-- A packet with the length -64: the engine copies it although nothing has come behind the header. -/
def negPacket : List UInt8 := downPacket (UInt32.ofNat (2 ^ 32 - 64)) []

theorem negPacket_copied : ¬Sound 1 ([some negPacket].foldl Down.recv (.start 1 [])) := by
  intro h
  have hlen : (Down.start 1 []).len2 negPacket = -64 := by decide +kernel
  have hbad : Bad (.start 1 []) (some negPacket) := ⟨negPacket, rfl, rfl, by decide +kernel, .inl ⟨by rw [hlen]; decide, by rw [hlen]; exact Int.natCast_nonneg _⟩⟩
  obtain ⟨p, hp, hno⟩ := recv_bad hbad
  exact hno ⟨h.nonneg p hp, h.received p hp⟩

/-- Two bytes that come in a packet each, and a connection that is then closed. -/
theorem stored_iff_twoPackets :
    Sound [(65 : UInt8), 66].length ([some (downPacket 1 [65]), some (downPacket 1 [66]), none].foldl Down.recv (.start [(65 : UInt8), 66].length [])) ∧
      Stored (((sendDown (downHdr ⟨0, 0, 0, 0, 0, 0, List.replicate 40 0, rfl⟩ 2) [65, 66]).map some).foldl Down.recv (.start 2 [])) [65, 66] :=
  (stored_iff ⟨0, 0, 0, 0, 0, 0, List.replicate 40 0, rfl⟩ [] [65, 66] (by decide) (by decide) _).2 (by decide +kernel)

end Db3w.Tli
