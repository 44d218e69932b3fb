/-
The undo file of a table in a transaction. Each entry is a checksum, the number of a record and the
record as it was; `rbk_write` appends one, and the file is read from its end to its start, with the
position kept in front of the entry that was read last. What has been written is read back, the last
entry first.
-/
import Db3w.Dbf.Transac
import Db3w.Lib.Bytes

namespace Db3w

open Bytes

variable {σ : Type}

/-- The loop of `init_crc32_tab` for one entry of the table. -/
def crcTab : Nat → UInt32 → UInt32
  | 0, crc => crc
  | n + 1, crc => crcTab n (if crc &&& 1 ≠ 0 then (crc >>> 1) ^^^ 0xEDB88320 else crc >>> 1)

/-- `crc_32`. -/
def crc32 (bytes : List UInt8) : UInt32 :=
  (bytes.foldl (fun (crc : UInt32) b => (crc >>> 8) ^^^ crcTab 8 ((crc ^^^ b.toUInt32) &&& 0xff)) 0xFFFFFFFF) ^^^ (0xFFFFFFFF : UInt32)

/-- `rbk_iobufsize`. -/
def rbkIobufsize (byprec : Nat) : Nat := 4 + 8 + byprec

/-- What `rbk_write` appends to the file. -/
def rbkWrite (e : Nat × Rec) : List UInt8 :=
  let body := word 8 e.1 ++ e.2.mark :: e.2.data
  word 4 (crc32 body).toNat ++ body

/-- The undo file after all the records of a log have been written. -/
def rbkFile (log : List (Nat × Rec)) : List UInt8 := log.flatMap rbkWrite

/-- `rbk_read_prev`: the entry in front of a position, and the position in front of it; nothing at the start of the file. -/
def rbkReadPrev (byprec : Nat) (file : List UInt8) (pos : Nat) : Except DbErr (Option (Nat × Nat × Rec)) :=
  if pos = 0 then .ok none
  else if pos < rbkIobufsize byprec then .error .rbkInval
  else
    let iobuf := (file.drop (pos - rbkIobufsize byprec)).take (rbkIobufsize byprec)
    let body := iobuf.drop 4
    if iobuf.length ≠ rbkIobufsize byprec ∨ readWord 4 iobuf ≠ (crc32 body).toNat then .error .rbkInval
    else .ok (some (pos - rbkIobufsize byprec, readWord 8 body, ⟨(body.drop 8).headD 0, (body.drop 8).tail⟩))

/-- `rbk_read_last`. -/
def rbkReadLast (byprec : Nat) (file : List UInt8) : Except DbErr (Option (Nat × Nat × Rec)) := rbkReadPrev byprec file file.length

/-- What is done for each entry that is read, down to the start of the file. -/
def rbkLoop (step : Nat × Rec → Tbl σ → Except DbErr (Tbl σ)) (byprec : Nat) (file : List UInt8) :
    Nat → Except DbErr (Option (Nat × Nat × Rec)) → Tbl σ → Except DbErr (Tbl σ)
  | 0, _, _ => .error .offEnd
  | fuel + 1, read, t => do
    match ← read with
    | none => return t
    | some (pos, e) => rbkLoop step byprec file fuel (rbkReadPrev byprec file pos) (← step e t)

/-- `rbk_rollback`. -/
def rbkRollback (upd : UpdNdx σ) (log : List (Nat × Rec)) (t : Tbl σ) : Except DbErr (Tbl σ) :=
  rbkLoop (rollbackEntry upd) t.byprec (rbkFile log) ((rbkFile log).length + 1) (rbkReadLast t.byprec (rbkFile log)) t

/-- `transaction_rollback`. -/
def transactionRollback (upd : UpdNdx σ) (t : Tbl σ) : Except DbErr (Tbl σ) :=
  match t.log with
  | none => .ok t
  | some log => do return { ← rbkRollback upd log t with log := none, rbkRecno := 0 }

section Read

variable {byprec : Nat} {log : List (Nat × Rec)} {e : Nat × Rec} {rest : List UInt8} {fuel : Nat} {t : Tbl σ}

/-- An entry of the log fits its place in the file. -/
def EntryFits (byprec : Nat) (e : Nat × Rec) : Prop := e.1 < 256 ^ 8 ∧ e.2.data.length + 1 = byprec

theorem length_rbkWrite (he : EntryFits byprec e) : (rbkWrite e).length = rbkIobufsize byprec := by
  unfold rbkWrite rbkIobufsize
  rw [List.length_append, List.length_append, List.length_cons, length_word, length_word, he.2]
  omega

/-- An entry that has been written is read back. -/
theorem rbkReadPrev_write (he : EntryFits byprec e) (pre : List UInt8) :
    rbkReadPrev byprec (pre ++ rbkWrite e ++ rest) (pre ++ rbkWrite e).length = .ok (some (pre.length, e)) := by
  have hlen := length_rbkWrite he
  have hsize : rbkIobufsize byprec = 12 + byprec := rfl
  have hpos : (pre ++ rbkWrite e).length - rbkIobufsize byprec = pre.length := by
    rw [List.length_append, hlen, Nat.add_sub_cancel]
  have hbuf : ((pre ++ rbkWrite e ++ rest).drop pre.length).take (rbkIobufsize byprec) = rbkWrite e := by
    rw [List.append_assoc, List.drop_left' rfl, List.take_left' hlen]
  have hbody : (rbkWrite e).drop 4 = word 8 e.1 ++ e.2.mark :: e.2.data := List.drop_left' (length_word ..)
  have hcrc : readWord 4 (rbkWrite e) = (crc32 ((rbkWrite e).drop 4)).toNat := by
    rw [hbody]
    exact readWord_append (UInt32.toNat_lt _) _
  unfold rbkReadPrev
  rw [hpos]
  dsimp only
  rw [hbuf, if_neg (by rw [List.length_append, hlen, hsize]; omega), if_neg (by rw [List.length_append, hlen]; omega),
    if_neg fun h => h.elim (fun h => h hlen) fun h => h hcrc, hbody, readWord_append he.1, List.drop_left' (length_word ..)]
  rfl

/-- The file is gone back through as the log is. -/
theorem rbkLoop_eq (rest : List UInt8) (step : Nat × Rec → Tbl σ → Except DbErr (Tbl σ)) (hfit : ∀ e ∈ log, EntryFits byprec e) (hfuel : log.length < fuel) :
    rbkLoop step byprec (rbkFile log ++ rest) fuel (rbkReadPrev byprec (rbkFile log ++ rest) (rbkFile log).length) t = log.foldrM step t := by
  induction log using List.reverseRecOn generalizing rest fuel t with
  | nil =>
    obtain ⟨n, rfl⟩ := Nat.exists_eq_add_of_lt hfuel
    rfl
  | append_singleton log e ih =>
    obtain ⟨n, rfl⟩ : ∃ n, fuel = n + 1 := Nat.exists_eq_succ_of_ne_zero (Nat.ne_of_gt (Nat.zero_lt_of_lt hfuel))
    rw [List.length_append] at hfuel
    have hfile : rbkFile (log ++ [e]) = rbkFile log ++ rbkWrite e := by
      unfold rbkFile
      rw [List.flatMap_append, List.flatMap_singleton]
    rw [hfile, rbkReadPrev_write (hfit e (by simp)), List.foldrM_append, rbkLoop]
    dsimp only [bind, Except.bind]
    have hone : List.foldrM step t [e] = step e t := by rw [List.foldrM_cons, List.foldrM_nil, pure_bind]
    rw [hone]
    cases step e t with
    | error e => rfl
    | ok t' =>
      dsimp only
      rw [List.append_assoc]
      exact ih _ (fun f hf => hfit f (List.mem_append_left _ hf)) (Nat.lt_of_succ_lt_succ hfuel)

theorem rbkLoop_file (step : Nat × Rec → Tbl σ → Except DbErr (Tbl σ)) (hfit : ∀ e ∈ log, EntryFits byprec e) :
    rbkLoop step byprec (rbkFile log) ((rbkFile log).length + 1) (rbkReadLast byprec (rbkFile log)) t = log.foldrM step t := by
  have hlen : log.length ≤ (rbkFile log).length := by
    clear hfit
    induction log with
    | nil => exact Nat.le_refl _
    | cons e log ih =>
      unfold rbkFile at ih ⊢
      rw [List.flatMap_cons, List.length_append, List.length_cons]
      have hpos : 4 ≤ (rbkWrite e).length := by
        unfold rbkWrite
        rw [List.length_append, length_word]
        exact Nat.le_add_right _ _
      omega
  have h := rbkLoop_eq (t := t) [] step hfit (Nat.lt_succ_of_le hlen)
  rw [List.append_nil] at h
  exact h

/-- COMMIT goes back through the same file. -/
theorem transactionCommit_eq (hlog : t.log = some log) (hfit : ∀ e ∈ log, EntryFits t.byprec e) :
    transactionCommit t = do
      return { ← rbkLoop commitEntry t.byprec (rbkFile log) ((rbkFile log).length + 1) (rbkReadLast t.byprec (rbkFile log)) t with
        log := none, rbkRecno := 0 } := by
  unfold transactionCommit
  rw [hlog, rbkLoop_file commitEntry hfit]

end Read

end Db3w
