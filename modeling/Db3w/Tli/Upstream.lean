/-
What the engine sends, and what the client makes of it. The engine cuts a payload into packets; the
client takes whatever the first receive gives, and waits for each later packet until it has all of it.
When the connection is closed before that, it waits for ever.
-/
import Db3w.Tli.Packet

namespace Db3w.Tli

open Bytes

/-! ## The engine -/

/-- The loop of `dbesrv_dispatch` that sends a payload. The first header has its whole length. -/
def sendUp (h : Hdr) (more : Bool) (data : List UInt8) : List (List UInt8) :=
  if _hd : data = [] then []
  else
    let len := if data.length > TRANSBUFSZ then TRANSBUFSZ else data.length
    let h := if more then h.putCx len else h
    h.packet (data.take len) :: sendUp h true (data.drop len)
termination_by data.length
decreasing_by
  have hpos := List.length_pos_iff.mpr _hd
  have hbuf : 0 < TRANSBUFSZ := by decide
  rw [List.length_drop]
  split <;> omega

/-- The header of a response with a payload. -/
def upHdr (h : Hdr) (payload : List UInt8) : Hdr := { h.putCx payload.length with flags := UInt32.ofNat UPSTREAM }

/-- All bytes of a response. -/
def sent (h : Hdr) (payload : List UInt8) : List UInt8 := (sendUp (upHdr h payload) false payload).flatten

/-! ## The client -/

/-- What a connection delivers until it is closed, and how many bytes each receive gets at most. -/
structure Conn where
  bytes : List UInt8
  cuts : Nat → Nat

/-- `recv`: at least one byte, unless the connection is closed. -/
def Conn.recv (len : Nat) (c : Conn) : List UInt8 × Conn :=
  let got := c.bytes.take (min len (max 1 (c.cuts 0)))
  (got, ⟨c.bytes.drop got.length, fun k => c.cuts (k + 1)⟩)

/-- `tli_recv(conn, buf, len, 1)`: it calls itself until all bytes are there. -/
def tliRecvExact : Nat → Nat → Conn → Option (List UInt8 × Conn)
  | 0, _, _ => none
  | fuel + 1, len, c =>
    let r := c.recv len
    if r.1.length = len then some r else (tliRecvExact fuel (len - r.1.length) r.2).map fun r' => (r.1 ++ r'.1, r'.2)

/-- What `hb_response` comes to: an error of the engine, a call back to the client after which it waits again, the end of
the session, a communication error, a payload in the buffer of the caller, nothing, or a request for data. -/
inductive Response where
  | error
  | usrCall
  | logout
  | badComm
  | data (bx : List UInt8)
  | done
  | downstream (xlen : Nat)
  deriving DecidableEq

/-- The loop that puts the pieces of a payload together, for at most `k` packets. -/
def recvLoop (fuel : Nat) : Nat → Nat → Nat → List UInt8 → List UInt8 → Conn → Option Response
  | 0, _, _, _, tp, _ => some (.data tp)
  | k + 1, xlen, rc, tbuf, tp, c =>
    if (xlen > TRANSBUFSZ ∧ rc ≠ TLIPACKETSIZE) ∨ (xlen ≤ TRANSBUFSZ ∧ (xlen ≠ netRead CX_OFFSET tbuf ∨ rc ≠ xlen + PKTHDRSZ)) then
      some .badComm
    else
      let len := if xlen > TRANSBUFSZ then TRANSBUFSZ else xlen
      let tp := tp ++ readAt PKTHDRSZ len tbuf
      let xlen := xlen - len
      if 0 < xlen then
        match tliRecvExact fuel (if xlen > TRANSBUFSZ then TLIPACKETSIZE else xlen + PKTHDRSZ) c with
        | none => none
        | some (got, c) => recvLoop fuel k xlen got.length (fill tbuf got) tp c
      else some (.data tp)

/-- `hb_response`, with the buffer of the caller set. -/
def hbResponse (fuel : Nat) (tbuf : List UInt8) (c : Conn) : Option Response :=
  let r := c.recv TLIPACKETSIZE
  let rc := r.1.length
  let tbuf := fill tbuf r.1
  if rc < PKTHDRSZ then some .badComm
  else if netRead FLAGS_OFFSET tbuf = HBERROR then some .error
  else if netRead FLAGS_OFFSET tbuf = USRNORMAL then some .usrCall
  else if netRead AX_OFFSET tbuf = DBE_LOGOUT then some .logout
  else
    let cx := int32 (netRead CX_OFFSET tbuf)
    if 0 < cx then
      let xlen := cx.toNat
      if xlen ≤ TRANSBUFSZ then
        if rc ≠ xlen + PKTHDRSZ then some .badComm else some (.data (readAt PKTHDRSZ xlen tbuf))
      else recvLoop fuel xlen xlen rc tbuf [] r.2
    else if cx < 0 then some (.downstream (-cx).toNat)
    else some .done

/-! ## Receiving -/

section Recv

variable {c : Conn} {len : Nat}

theorem recv_length (len : Nat) (c : Conn) : (c.recv len).1.length = min (min len (max 1 (c.cuts 0))) c.bytes.length := List.length_take ..

theorem recv_pre (len : Nat) (c : Conn) : (c.recv len).1 <+: c.bytes := List.take_prefix ..

/-- A packet that is there is received whole, with `n` receives. -/
theorem tliRecvExact_of_le (h : len ≤ c.bytes.length) : ∃ n cuts, ∀ fuel, tliRecvExact fuel len c =
    if n ≤ fuel then some (c.bytes.take len, ⟨c.bytes.drop len, cuts⟩) else none := by
  induction len using Nat.strong_induction_on generalizing c with
  | _ len ih =>
    have hlen := recv_length len c
    have hgot : (c.recv len).1 = c.bytes.take (c.recv len).1.length := (List.prefix_iff_eq_take.mp (recv_pre len c))
    by_cases hall : (c.recv len).1.length = len
    · refine ⟨1, fun k => c.cuts (k + 1), fun fuel => ?_⟩
      cases fuel with
      | zero => rfl
      | succ fuel =>
        rw [tliRecvExact, if_pos hall, if_pos (Nat.le_add_left _ _)]
        rw [hall] at hgot
        show some ((c.recv len).1, (⟨c.bytes.drop (c.recv len).1.length, _⟩ : Conn)) = _
        rw [hall, hgot]
    · -- some bytes have come, the rest is waited for
      have hrest := ih (len - (c.recv len).1.length) (by omega) (c := (c.recv len).2) (by
        show _ ≤ (c.bytes.drop (c.recv len).1.length).length
        rw [List.length_drop]
        omega)
      obtain ⟨n, cuts, hn⟩ := hrest
      refine ⟨n + 1, cuts, fun fuel => ?_⟩
      cases fuel with
      | zero => rfl
      | succ fuel =>
        rw [tliRecvExact, if_neg hall, hn fuel]
        by_cases hfuel : n ≤ fuel
        · rw [if_pos hfuel, if_pos (Nat.succ_le_succ hfuel)]
          have hle : (c.recv len).1.length ≤ len := by omega
          have htake : (c.recv len).1 ++ (c.bytes.drop (c.recv len).1.length).take (len - (c.recv len).1.length) = c.bytes.take len := by
            conv_lhs => rw [hgot]
            rw [List.length_take, Nat.min_eq_left (by omega), ← List.take_add, Nat.add_sub_cancel' hle]
          have hdrop : (c.bytes.drop (c.recv len).1.length).drop (len - (c.recv len).1.length) = c.bytes.drop len := by
            rw [List.drop_drop, Nat.add_sub_cancel' hle]
          show some ((c.recv len).1 ++ (c.bytes.drop (c.recv len).1.length).take _, _) = _
          rw [htake]
          show some (c.bytes.take len, (⟨(c.bytes.drop (c.recv len).1.length).drop _, cuts⟩ : Conn)) = _
          rw [hdrop]
        · rw [if_neg hfuel, if_neg fun h => hfuel (Nat.le_of_succ_le_succ h)]
          rfl

/-- A packet that is cut off is waited for, for ever. -/
theorem tliRecvExact_short (h : c.bytes.length < len) (fuel : Nat) : tliRecvExact fuel len c = none := by
  induction fuel generalizing c len with
  | zero => rfl
  | succ fuel ih =>
    have hlen := recv_length len c
    rw [tliRecvExact]
    rw [if_neg (by omega), ih]
    · rfl
    · show (c.bytes.drop (c.recv len).1.length).length < _
      rw [List.length_drop]
      omega

end Recv

/-! ## The packets of a payload -/

section Packets

variable {h : Hdr} {more : Bool} {data payload : List UInt8}

/-- The header of a packet. -/
def pieceHdr (h : Hdr) (more : Bool) (n : Nat) : Hdr := if more then h.putCx (pieceLen n) else h

theorem sendUp_nil (h : Hdr) (more : Bool) : sendUp h more [] = [] := by
  rw [sendUp]
  exact dif_pos rfl

theorem sendUp_cons (h : Hdr) (more : Bool) (hd : data ≠ []) : sendUp h more data =
    (pieceHdr h more data.length).packet (data.take (pieceLen data.length)) ::
      sendUp (pieceHdr h more data.length) true (data.drop (pieceLen data.length)) := by
  rw [sendUp, dif_neg hd]
  rfl

/-- Any other header is put in front of later packets the same way. -/
theorem length_flatten_sendUp (h : Hdr) (more : Bool) (data : List UInt8) : data.length ≤ (sendUp h more data).flatten.length := by
  induction hn : data.length using Nat.strong_induction_on generalizing h more data with
  | _ n ih =>
    subst hn
    by_cases hd : data = []
    · subst hd
      exact Nat.zero_le _
    · have hpos := pieceLen_pos (List.length_pos_iff.mpr hd)
      have hle := pieceLen_le data.length
      have hrest := ih (data.drop (pieceLen data.length)).length (by rw [List.length_drop]; omega) (pieceHdr h more data.length) true _ rfl
      rw [List.length_drop] at hrest
      rw [sendUp_cons h more hd, List.flatten_cons, List.length_append, length_packet, List.length_take]
      omega

end Packets

/-! ## Putting the pieces together -/

section Loop

variable {h : Hdr} {data tp tbuf following : List UInt8} {c : Conn} {k : Nat}

/-- What a receive puts into the buffer is the packet, with something behind it. -/
structure InBuf (h : Hdr) (piece tbuf : List UInt8) : Prop where
  packet : ∃ junk, tbuf = h.packet piece ++ junk

theorem inBuf_fill (h : Hdr) (piece tbuf : List UInt8) : InBuf h piece (fill tbuf (h.packet piece)) := ⟨_, rfl⟩

theorem InBuf.cx {piece : List UInt8} (hb : InBuf h piece tbuf) : netRead CX_OFFSET tbuf = h.cx.toNat := by
  obtain ⟨junk, rfl⟩ := hb.packet
  have hlen := length_packet h piece
  rw [netRead_left (by rw [hlen]; unfold CX_OFFSET PKTHDRSZ; omega), netRead_cx]

theorem InBuf.piece {piece : List UInt8} (hb : InBuf h piece tbuf) : readAt PKTHDRSZ piece.length tbuf = piece := by
  obtain ⟨junk, rfl⟩ := hb.packet
  exact readAt_packet h piece junk

variable (tp) in
/-- The loop, with a packet in the buffer: what is left of the payload is received if and only if the connection delivers it. -/
theorem recvLoop_spec {xlen : Nat} (hx : xlen = data.length) (hk : xlen ≤ k) (hpos : 0 < xlen) (hmax : xlen < 2 ^ 32)
    (hb : InBuf h (data.take (pieceLen xlen)) tbuf) (hcx : xlen ≤ TRANSBUFSZ → h.cx.toNat = xlen)
    (hc : c.bytes <+: (sendUp h true (data.drop (pieceLen xlen))).flatten ++ following) :
    ((sendUp h true (data.drop (pieceLen xlen))).flatten.length ≤ c.bytes.length → ∃ n, ∀ fuel, n ≤ fuel →
      recvLoop fuel k xlen (PKTHDRSZ + pieceLen xlen) tbuf tp c = some (.data (tp ++ data))) ∧
    (c.bytes.length < (sendUp h true (data.drop (pieceLen xlen))).flatten.length → ∀ fuel,
      recvLoop fuel k xlen (PKTHDRSZ + pieceLen xlen) tbuf tp c = none) := by
  induction k generalizing xlen data tbuf tp c h with
  | zero => omega
  | succ k ih =>
    have hle := pieceLen_le xlen
    have hppos := pieceLen_pos hpos
    have hpiece : (data.take (pieceLen xlen)).length = pieceLen xlen := by
      rw [List.length_take, ← hx]
      omega
    -- the packet is one that is expected
    have hgood : ¬((xlen > TRANSBUFSZ ∧ PKTHDRSZ + pieceLen xlen ≠ TLIPACKETSIZE) ∨
        (xlen ≤ TRANSBUFSZ ∧ (xlen ≠ netRead CX_OFFSET tbuf ∨ PKTHDRSZ + pieceLen xlen ≠ xlen + PKTHDRSZ))) := by
      rintro (⟨hgt, hne⟩ | ⟨hxle, hne | hne⟩)
      · rw [pieceLen, if_pos hgt] at hne
        exact hne rfl
      · rw [hb.cx, hcx hxle] at hne
        exact hne rfl
      · rw [pieceLen, if_neg (by omega)] at hne
        omega
    have hread : readAt PKTHDRSZ (pieceLen xlen) tbuf = data.take (pieceLen xlen) := by
      have hp := hb.piece
      rwa [hpiece] at hp
    have hstep : ∀ fuel, recvLoop fuel (k + 1) xlen (PKTHDRSZ + pieceLen xlen) tbuf tp c =
        if 0 < xlen - pieceLen xlen then
          match tliRecvExact fuel (PKTHDRSZ + pieceLen (xlen - pieceLen xlen)) c with
          | none => none
          | some (got, c) => recvLoop fuel k (xlen - pieceLen xlen) got.length (fill tbuf got) (tp ++ data.take (pieceLen xlen)) c
        else some (.data (tp ++ data.take (pieceLen xlen))) := by
      intro fuel
      rw [recvLoop, if_neg hgood]
      show (if 0 < xlen - pieceLen xlen then
          match tliRecvExact fuel (if xlen - pieceLen xlen > TRANSBUFSZ then TLIPACKETSIZE else xlen - pieceLen xlen + PKTHDRSZ) c with
          | none => none
          | some (got, c) => recvLoop fuel k (xlen - pieceLen xlen) got.length (fill tbuf got) (tp ++ readAt PKTHDRSZ (pieceLen xlen) tbuf) c
        else some (.data (tp ++ readAt PKTHDRSZ (pieceLen xlen) tbuf))) = _
      rw [ask_eq, hread]
    have hdrop : (data.drop (pieceLen xlen)).length = xlen - pieceLen xlen := by rw [List.length_drop, hx]
    by_cases hlast : 0 < xlen - pieceLen xlen
    · -- another packet is to come
      have hne : data.drop (pieceLen xlen) ≠ [] := by
        intro he
        rw [he, List.length_nil] at hdrop
        omega
      rw [sendUp_cons h true hne, hdrop, List.flatten_cons] at hc ⊢
      generalize hdata : data.drop (pieceLen xlen) = data' at *
      generalize hhdr : pieceHdr h true (xlen - pieceLen xlen) = h' at *
      generalize hpkt : h'.packet (data'.take (pieceLen (xlen - pieceLen xlen))) = pkt at *
      generalize hrest : (sendUp h' true (data'.drop (pieceLen (xlen - pieceLen xlen)))).flatten = rest at *
      have hlen : pkt.length = PKTHDRSZ + pieceLen (xlen - pieceLen xlen) := by
        have hle' := pieceLen_le (xlen - pieceLen xlen)
        rw [← hpkt, length_packet, List.length_take, hdrop, Nat.min_eq_left hle']
      have hjoin : tp ++ data = tp ++ data.take (pieceLen xlen) ++ data' := by
        rw [← hdata, List.append_assoc, List.take_append_drop]
      by_cases hall : pkt.length ≤ c.bytes.length
      · obtain ⟨n, cuts, hrecv⟩ := tliRecvExact_of_le hall
        rw [List.append_assoc] at hc
        have hgot : c.bytes.take pkt.length = pkt := by
          obtain ⟨t, ht⟩ := hc
          have := congrArg (List.take pkt.length) ht
          rwa [List.take_left' rfl, List.take_append_of_le_length hall] at this
        have hcrest : (⟨c.bytes.drop pkt.length, cuts⟩ : Conn).bytes <+: rest ++ following := by
          have := hc.drop pkt.length
          rwa [List.drop_left' rfl] at this
        have hcx' : xlen - pieceLen xlen ≤ TRANSBUFSZ → h'.cx.toNat = xlen - pieceLen xlen := by
          intro hle'
          rw [← hhdr]
          show (UInt32.ofNat (pieceLen (xlen - pieceLen xlen))).toNat = _
          rw [pieceLen, if_neg (by omega), UInt32.toNat_ofNat', Nat.mod_eq_of_lt (by omega)]
        have hbuf : InBuf h' (data'.take (pieceLen (xlen - pieceLen xlen))) (fill tbuf pkt) := hpkt ▸ inBuf_fill _ _ _
        obtain ⟨hok, hshort⟩ := ih (tp ++ data.take (pieceLen xlen)) hdrop.symm (by omega) hlast (by omega) hbuf hcx'
          (by rw [hrest]; exact hcrest)
        rw [hrest] at hok hshort
        have hnext : ∀ fuel, n ≤ fuel → recvLoop fuel (k + 1) xlen (PKTHDRSZ + pieceLen xlen) tbuf tp c =
            recvLoop fuel k (xlen - pieceLen xlen) (PKTHDRSZ + pieceLen (xlen - pieceLen xlen)) (fill tbuf pkt)
              (tp ++ data.take (pieceLen xlen)) ⟨c.bytes.drop pkt.length, cuts⟩ := by
          intro fuel hfuel
          rw [hstep, if_pos hlast, ← hlen, hrecv fuel, if_pos hfuel, hgot]
        rw [List.length_append]
        constructor
        · intro htotal
          obtain ⟨n', hn'⟩ := hok (by show _ ≤ (c.bytes.drop pkt.length).length; rw [List.length_drop]; omega)
          refine ⟨max n n', fun fuel hfuel => ?_⟩
          rw [hnext fuel (by omega), hn' fuel (by omega), hjoin]
        · intro htotal fuel
          have hnone := hshort (by show (c.bytes.drop pkt.length).length < _; rw [List.length_drop]; omega)
          by_cases hfuel : n ≤ fuel
          · rw [hnext fuel hfuel, hnone fuel]
          · rw [hstep, if_pos hlast, ← hlen, hrecv fuel, if_neg hfuel]
      · rw [List.length_append]
        refine ⟨fun htotal => absurd htotal (by omega), fun _ fuel => ?_⟩
        rw [hstep, if_pos hlast, ← hlen, tliRecvExact_short (by omega)]
    · -- that was the last one
      have hnil : data.drop (pieceLen xlen) = [] := List.length_eq_zero_iff.mp (by omega)
      have hall : data.take (pieceLen xlen) = data := by
        conv_rhs => rw [← List.take_append_drop (pieceLen xlen) data]
        rw [hnil, List.append_nil]
      rw [hnil, sendUp_nil]
      refine ⟨fun _ => ⟨0, fun fuel _ => ?_⟩, fun h => absurd h (Nat.not_lt_zero _)⟩
      rw [hstep, if_neg hlast, hall]

end Loop

/-! ## The payload that the client gets -/

section Response

variable {h : Hdr} {payload following tbuf : List UInt8} {cuts : Nat → Nat} {cut : Nat}

/-- A connection that delivers a response and what follows it, up to some byte. -/
def delivered (h : Hdr) (payload following : List UInt8) (cut : Nat) (cuts : Nat → Nat) : Conn :=
  ⟨(sent h payload ++ following).take cut, cuts⟩

/-- The client stops receiving, with the payload or with a communication error. -/
def Received (h : Hdr) (payload following : List UInt8) (cut : Nat) (cuts : Nat → Nat) (tbuf : List UInt8) : Prop :=
  ∃ n r, (∀ fuel, n ≤ fuel → hbResponse fuel tbuf (delivered h payload following cut cuts) = some r) ∧ (r = .data payload ∨ r = .badComm)

/-- The client gets the payload. -/
def Delivered (h : Hdr) (payload following : List UInt8) (cut : Nat) (cuts : Nat → Nat) (tbuf : List UInt8) : Prop :=
  ∃ n, ∀ fuel, n ≤ fuel → hbResponse fuel tbuf (delivered h payload following cut cuts) = some (.data payload)

/-- The bytes that the first receive returns. -/
def firstRecv (c : Conn) : Nat := min (min TLIPACKETSIZE (max 1 (c.cuts 0))) c.bytes.length

/-- All of the response comes, and the first receive returns a whole packet; later ones may return less. -/
def Whole (h : Hdr) (payload following : List UInt8) (cut : Nat) (cuts : Nat → Nat) : Prop :=
  (sent h payload).length ≤ cut ∧ firstRecv (delivered h payload following cut cuts) = PKTHDRSZ + pieceLen payload.length

/-- A response is its first packet and the others. -/
theorem sent_eq (h : Hdr) (hne : payload ≠ []) : sent h payload = (upHdr h payload).packet (payload.take (pieceLen payload.length)) ++
    (sendUp (upHdr h payload) true (payload.drop (pieceLen payload.length))).flatten := by
  unfold sent
  rw [sendUp_cons (upHdr h payload) false hne, List.flatten_cons]
  rfl

theorem length_first (h : Hdr) (payload : List UInt8) :
    ((upHdr h payload).packet (payload.take (pieceLen payload.length))).length = PKTHDRSZ + pieceLen payload.length := by
  have hle := pieceLen_le payload.length
  rw [length_packet, List.length_take, Nat.min_eq_left hle]

theorem got_eq (h : Hdr) (payload following : List UInt8) (cut : Nat) (cuts : Nat → Nat) :
    ((delivered h payload following cut cuts).recv TLIPACKETSIZE).1 =
      (sent h payload ++ following).take (firstRecv (delivered h payload following cut cuts)) := by
  have hlen := recv_length TLIPACKETSIZE (delivered h payload following cut cuts)
  have hpre := (recv_pre TLIPACKETSIZE (delivered h payload following cut cuts)).trans (List.take_prefix cut (sent h payload ++ following))
  rw [List.prefix_iff_eq_take.mp hpre, hlen]
  rfl

variable (tbuf) in
/-- What is read of the header, when the first receive returns all of it. -/
theorem netRead_first (hne : payload ≠ []) (hrc : PKTHDRSZ ≤ firstRecv (delivered h payload following cut cuts)) {off : Nat}
    (hoff : off ≤ CX_OFFSET) : netRead off (fill tbuf ((delivered h payload following cut cuts).recv TLIPACKETSIZE).1) =
      netRead off ((upHdr h payload).packet (payload.take (pieceLen payload.length))) := by
  have hlen : ((delivered h payload following cut cuts).recv TLIPACKETSIZE).1.length =
    firstRecv (delivered h payload following cut cuts) := recv_length _ _
  have hhdr : off + 4 ≤ PKTHDRSZ := le_trans (Nat.add_le_add_right hoff 4) (by decide)
  unfold fill
  rw [netRead_left (by omega), got_eq, netRead_take (by omega), sent_eq h hne, List.append_assoc,
    netRead_left (by rw [length_first]; omega)]

variable (h following tbuf cuts cut) in
/-- Up to the payload the client does what the header says. -/
theorem hbResponse_eq (hpos : 0 < payload.length) (hmax : payload.length < 2 ^ 31) (fuel : Nat) :
    hbResponse fuel tbuf (delivered h payload following cut cuts) =
      if firstRecv (delivered h payload following cut cuts) < PKTHDRSZ then some .badComm
      else if h.ax.toNat = DBE_LOGOUT then some .logout
      else if payload.length ≤ TRANSBUFSZ then
        if firstRecv (delivered h payload following cut cuts) ≠ payload.length + PKTHDRSZ then some .badComm
        else some (.data (readAt PKTHDRSZ payload.length (fill tbuf ((delivered h payload following cut cuts).recv TLIPACKETSIZE).1)))
      else recvLoop fuel payload.length payload.length (firstRecv (delivered h payload following cut cuts))
        (fill tbuf ((delivered h payload following cut cuts).recv TLIPACKETSIZE).1) []
        ((delivered h payload following cut cuts).recv TLIPACKETSIZE).2 := by
  have hne := List.length_pos_iff.mp hpos
  have hlen : ((delivered h payload following cut cuts).recv TLIPACKETSIZE).1.length =
    firstRecv (delivered h payload following cut cuts) := recv_length _ _
  unfold hbResponse
  dsimp only
  rw [hlen]
  by_cases hrc : firstRecv (delivered h payload following cut cuts) < PKTHDRSZ
  · rw [if_pos hrc, if_pos hrc]
  rw [if_neg hrc, if_neg hrc]
  have hread : ∀ {off : Nat}, off ≤ CX_OFFSET → _ := netRead_first tbuf hne (not_lt.mp hrc)
  rw [hread (by decide : FLAGS_OFFSET ≤ CX_OFFSET), hread (by decide : AX_OFFSET ≤ CX_OFFSET), hread (le_refl CX_OFFSET),
    netRead_flags, netRead_ax, netRead_cx]
  have hflags : (upHdr h payload).flags.toNat = UPSTREAM := by
    show (UInt32.ofNat UPSTREAM).toNat = UPSTREAM
    decide
  have hcx : int32 (upHdr h payload).cx.toNat = payload.length := by
    show int32 (UInt32.ofNat payload.length).toNat = _
    rw [UInt32.toNat_ofNat', Nat.mod_eq_of_lt (by omega), int32_of_lt hmax]
  rw [hflags, if_neg (by decide), if_neg (by decide), hcx]
  show (if h.ax.toNat = DBE_LOGOUT then _ else _) = _
  by_cases hax : h.ax.toNat = DBE_LOGOUT
  · rw [if_pos hax, if_pos hax]
  · rw [if_neg hax, if_neg hax, if_pos (by omega), Int.toNat_natCast]

variable (tbuf) in
/-- The loop of the client on a payload that needs several packets, when the first one comes whole. -/
theorem recvLoop_first (hpos : 0 < payload.length) (hmax : payload.length < 2 ^ 31)
    (hlong : TRANSBUFSZ < payload.length) (hrc : firstRecv (delivered h payload following cut cuts) = TLIPACKETSIZE) :
    ((sent h payload).length ≤ cut → ∃ n, ∀ fuel, n ≤ fuel → recvLoop fuel payload.length payload.length TLIPACKETSIZE
      (fill tbuf ((delivered h payload following cut cuts).recv TLIPACKETSIZE).1) []
      ((delivered h payload following cut cuts).recv TLIPACKETSIZE).2 = some (.data payload)) ∧
    (cut < (sent h payload).length → ∀ fuel, recvLoop fuel payload.length payload.length TLIPACKETSIZE
      (fill tbuf ((delivered h payload following cut cuts).recv TLIPACKETSIZE).1) []
      ((delivered h payload following cut cuts).recv TLIPACKETSIZE).2 = none) := by
  have hne := List.length_pos_iff.mp hpos
  have hpiece : PKTHDRSZ + pieceLen payload.length = TLIPACKETSIZE := by
    rw [pieceLen, if_pos hlong]
    decide
  have hfirst : ((upHdr h payload).packet (payload.take (pieceLen payload.length))).length = TLIPACKETSIZE :=
    (length_first h payload).trans hpiece
  have hsent := sent_eq h hne
  generalize hpkt : (upHdr h payload).packet (payload.take (pieceLen payload.length)) = pkt at *
  have hgot : ((delivered h payload following cut cuts).recv TLIPACKETSIZE).1 = pkt := by
    rw [got_eq, hrc, hsent, List.append_assoc, List.take_left' hfirst]
  have hbytes : ((delivered h payload following cut cuts).recv TLIPACKETSIZE).2.bytes =
      ((sent h payload ++ following).take cut).drop TLIPACKETSIZE := by
    show ((sent h payload ++ following).take cut).drop ((delivered h payload following cut cuts).recv TLIPACKETSIZE).1.length = _
    rw [hgot, hfirst]
  have hcut : TLIPACKETSIZE ≤ ((sent h payload ++ following).take cut).length := by
    rw [← hrc]
    exact min_le_right _ _
  rw [hgot]
  generalize ((delivered h payload following cut cuts).recv TLIPACKETSIZE).2 = c at *
  have hpre : c.bytes <+: (sendUp (upHdr h payload) true (payload.drop (pieceLen payload.length))).flatten ++ following := by
    rw [hbytes, hsent, List.append_assoc]
    have hpre := (List.take_prefix cut (pkt ++ ((sendUp (upHdr h payload) true (payload.drop (pieceLen payload.length))).flatten ++
      following))).drop TLIPACKETSIZE
    rwa [List.drop_left' hfirst] at hpre
  have hlen : c.bytes.length = min cut ((sent h payload).length + following.length) - TLIPACKETSIZE := by
    rw [hbytes, List.length_drop, List.length_take, List.length_append]
  have htotal : (sent h payload).length =
      TLIPACKETSIZE + (sendUp (upHdr h payload) true (payload.drop (pieceLen payload.length))).flatten.length := by
    rw [hsent, List.length_append, hfirst]
  rw [List.length_take, List.length_append] at hcut
  have hbuf : InBuf (upHdr h payload) (payload.take (pieceLen payload.length)) (fill tbuf pkt) := hpkt ▸ inBuf_fill _ _ _
  obtain ⟨hok, hshort⟩ := recvLoop_spec [] rfl le_rfl hpos (by omega) hbuf (fun hle => absurd hle (by omega)) hpre
  rw [hpiece] at hok hshort
  refine ⟨fun hall => hok (by omega), fun hall => hshort (by omega)⟩

/-- A payload of a single packet that comes whole. -/
theorem readAt_single (hpos : 0 < payload.length) (hshort : payload.length ≤ TRANSBUFSZ)
    (hrc : firstRecv (delivered h payload following cut cuts) = payload.length + PKTHDRSZ) :
    readAt PKTHDRSZ payload.length (fill tbuf ((delivered h payload following cut cuts).recv TLIPACKETSIZE).1) = payload := by
  have hpiece : pieceLen payload.length = payload.length := if_neg (by omega)
  have hfirst := length_first h payload
  rw [hpiece, List.take_length, Nat.add_comm, ← hrc] at hfirst
  rw [got_eq, sent_eq h (List.length_pos_iff.mp hpos), hpiece, List.take_length, List.append_assoc, List.take_left' hfirst]
  exact readAt_packet (upHdr h payload) payload _

/-- **The client receives what the engine sends**, or reports an error: unless the connection is closed behind the first packet
of several and before the last, or the response ends the session. -/
theorem received_iff (h : Hdr) (following tbuf : List UInt8) (cut : Nat) (cuts : Nat → Nat) (hpos : 0 < payload.length)
    (hmax : payload.length < 2 ^ 31) :
    (Received h payload following cut cuts tbuf ∧ (Whole h payload following cut cuts → Delivered h payload following cut cuts tbuf)) ↔
      (h.ax.toNat = DBE_LOGOUT → firstRecv (delivered h payload following cut cuts) < PKTHDRSZ) ∧
      ¬(TRANSBUFSZ < payload.length ∧ firstRecv (delivered h payload following cut cuts) = TLIPACKETSIZE ∧
        cut < (sent h payload).length) := by
  have heq := fun fuel => hbResponse_eq h following tbuf cuts cut hpos hmax fuel
  have hppos := pieceLen_pos hpos
  by_cases hrc : firstRecv (delivered h payload following cut cuts) < PKTHDRSZ
  · -- not even the header has come
    refine iff_of_true ⟨⟨0, .badComm, fun fuel _ => by rw [heq, if_pos hrc], .inr rfl⟩, fun hw => ?_⟩ ⟨fun _ => hrc, fun hbad => ?_⟩
    · have := hw.2
      omega
    · rw [hbad.2.1] at hrc
      exact absurd hrc (by decide)
  by_cases hax : h.ax.toNat = DBE_LOGOUT
  · refine iff_of_false (fun hgood => ?_) fun hgood => hrc (hgood.1 hax)
    obtain ⟨⟨n, r, hr, hok⟩, -⟩ := hgood
    have := hr n le_rfl
    rw [heq, if_neg hrc, if_pos hax, Option.some_inj] at this
    subst this
    rcases hok with hok | hok <;> cases hok
  have hcut : (sent h payload).length ≤ cut → (sent h payload).length ≤ (delivered h payload following cut cuts).bytes.length := by
    intro hle
    show _ ≤ ((sent h payload ++ following).take cut).length
    rw [List.length_take, List.length_append]
    omega
  by_cases hlong : payload.length ≤ TRANSBUFSZ
  · -- a single packet
    have hpiece : pieceLen payload.length = payload.length := if_neg (by omega)
    have hdata : ∀ fuel, firstRecv (delivered h payload following cut cuts) = payload.length + PKTHDRSZ →
        hbResponse fuel tbuf (delivered h payload following cut cuts) = some (.data payload) := by
      intro fuel hwhole
      rw [heq, if_neg hrc, if_neg hax, if_pos hlong, if_neg (not_not.mpr hwhole), readAt_single hpos hlong hwhole]
    refine iff_of_true ⟨?_, fun hw => ⟨0, fun fuel _ => hdata fuel ?_⟩⟩ ⟨fun h => absurd h hax, fun hbad => absurd hbad.1 (by omega)⟩
    · by_cases hwhole : firstRecv (delivered h payload following cut cuts) = payload.length + PKTHDRSZ
      · exact ⟨0, .data payload, fun fuel _ => hdata fuel hwhole, .inl rfl⟩
      · refine ⟨0, .badComm, fun fuel _ => ?_, .inr rfl⟩
        rw [heq, if_neg hrc, if_neg hax, if_pos hlong, if_pos hwhole]
    · rw [hw.2, hpiece, Nat.add_comm]
  have hpiece : PKTHDRSZ + pieceLen payload.length = TLIPACKETSIZE := by
    rw [pieceLen, if_pos (by omega)]
    decide
  have hloop : ∀ fuel, hbResponse fuel tbuf (delivered h payload following cut cuts) =
      recvLoop fuel payload.length payload.length (firstRecv (delivered h payload following cut cuts))
        (fill tbuf ((delivered h payload following cut cuts).recv TLIPACKETSIZE).1) []
        ((delivered h payload following cut cuts).recv TLIPACKETSIZE).2 := fun fuel => by
    rw [heq, if_neg hrc, if_neg hax, if_neg hlong]
  by_cases hfull : firstRecv (delivered h payload following cut cuts) = TLIPACKETSIZE
  · obtain ⟨hok, hnever⟩ := recvLoop_first tbuf hpos hmax (not_le.mp hlong) hfull
    rw [hfull] at hloop
    by_cases hall : (sent h payload).length ≤ cut
    · obtain ⟨n, hn⟩ := hok hall
      have hdata : ∀ fuel, n ≤ fuel → hbResponse fuel tbuf (delivered h payload following cut cuts) = some (.data payload) :=
        fun fuel hfuel => (hloop fuel).trans (hn fuel hfuel)
      exact iff_of_true ⟨⟨n, _, hdata, .inl rfl⟩, fun _ => ⟨n, hdata⟩⟩ ⟨fun h => absurd h hax, fun hbad => by omega⟩
    · -- the client waits for ever
      refine iff_of_false (fun hgood => ?_) fun hgood => hgood.2 ⟨not_le.mp hlong, hfull, not_le.mp hall⟩
      obtain ⟨⟨n, r, hr, -⟩, -⟩ := hgood
      have := hr n le_rfl
      rw [hloop, hnever (not_le.mp hall) n] at this
      cases this
  · -- the first packet comes in pieces
    refine iff_of_true ⟨⟨0, .badComm, fun fuel _ => ?_, .inr rfl⟩, fun hw => absurd (hw.2.trans hpiece) hfull⟩
      ⟨fun h => absurd h hax, fun hbad => hfull hbad.2.1⟩
    rw [hloop]
    generalize hk : payload.length = k at *
    obtain ⟨k, rfl⟩ : ∃ j, k = j + 1 := ⟨k - 1, by omega⟩
    rw [recvLoop, if_pos (.inl ⟨not_le.mp hlong, hfull⟩)]

end Response

/-! ## A payload of two packets -/

/-- A header with nothing but zeros. -/
def zeroHdr : Hdr := ⟨0, 0, 0, 0, 0, 0, List.replicate 40 0, List.length_replicate ..⟩

/-- The connection is closed behind the first packet, and the client waits. -/
theorem twoPackets_wait : ¬Received zeroHdr (List.replicate 5000 0) [] TLIPACKETSIZE (fun _ => TLIPACKETSIZE) [] := by
  have hlen : (List.replicate 5000 (0 : UInt8)).length = 5000 := List.length_replicate ..
  have hlong : TRANSBUFSZ < (List.replicate 5000 (0 : UInt8)).length := by
    rw [hlen]
    decide
  have hpiece : PKTHDRSZ + pieceLen (List.replicate 5000 (0 : UInt8)).length = TLIPACKETSIZE := by
    rw [pieceLen, if_pos hlong]
    decide
  have hsent : TLIPACKETSIZE < (sent zeroHdr (List.replicate 5000 0)).length := by
    have hfirst := (length_first zeroHdr (List.replicate 5000 0)).trans hpiece
    have hrest := length_flatten_sendUp (upHdr zeroHdr (List.replicate 5000 0)) true
      ((List.replicate 5000 (0 : UInt8)).drop (pieceLen (List.replicate 5000 (0 : UInt8)).length))
    rw [sent_eq zeroHdr (List.length_pos_iff.mp (by omega)), List.length_append, hfirst]
    rw [List.length_drop] at hrest
    have hle : pieceLen (List.replicate 5000 (0 : UInt8)).length ≤ 4999 := by
      rw [hlen]
      decide
    omega
  have hrc : firstRecv (delivered zeroHdr (List.replicate 5000 0) [] TLIPACKETSIZE fun _ => TLIPACKETSIZE) = TLIPACKETSIZE := by
    show min (min TLIPACKETSIZE (max 1 TLIPACKETSIZE)) ((sent zeroHdr (List.replicate 5000 0) ++ []).take TLIPACKETSIZE).length = _
    rw [List.append_nil, List.length_take]
    omega
  obtain ⟨-, hnever⟩ := recvLoop_first [] (by omega) (by omega) hlong hrc
  rintro ⟨n, r, hr, -⟩
  have := hr n le_rfl
  rw [hbResponse_eq _ _ _ _ _ (by omega) (by omega), hrc, if_neg (by decide), if_neg (by decide), if_neg (not_le.mpr hlong), hnever hsent n] at this
  cases this

/-- With the connection open until all has come, the client has the 5000 bytes. -/
theorem received_iff_two :
    Received zeroHdr (List.replicate 5000 65) [] (sent zeroHdr (List.replicate 5000 65)).length (fun _ => TLIPACKETSIZE) [] ∧
      (Whole zeroHdr (List.replicate 5000 65) [] (sent zeroHdr (List.replicate 5000 65)).length (fun _ => TLIPACKETSIZE) →
        Delivered zeroHdr (List.replicate 5000 65) [] (sent zeroHdr (List.replicate 5000 65)).length (fun _ => TLIPACKETSIZE) []) :=
  have hlen : (List.replicate 5000 (65 : UInt8)).length = 5000 := List.length_replicate ..
  (received_iff zeroHdr [] [] _ (fun _ => TLIPACKETSIZE) (by omega) (by omega)).2
    ⟨fun h => absurd h (by decide), fun h => lt_irrefl _ h.2.2⟩

end Db3w.Tli
