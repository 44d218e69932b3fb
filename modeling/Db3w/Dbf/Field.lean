/-
Fields of the current record (`findfld`, `dbstore` and `dbretriv` of db.c). A value is stored as text of
the width of its field and read back from it. What is read is what was stored, up to the padding of
strings, as long as the text is shorter than the buffer it is made in, and is not taken for NULL.
-/
import Db3w.Dbf.Header
import Db3w.Dbf.Record
import Db3w.Hb.Calendar
import Db3w.Hb.Names
import Db3w.Hb.NumFormat

namespace Db3w.Fields

open Bytes
open Hb hiding MAXDIGITS MAXSTRLEN

abbrev HBREAD : Nat := 1
abbrev HBMODIFY : Nat := 2

/-- A field of an open table, with the rights to it. -/
structure OpenField extends Field where
  x0 : Nat

def OpenField.width (f : OpenField) : Nat := f.tlength.toNat

/-- What the texts of fields depend on: the options, `sprintf` with `%*.*lf` and `strtod`, what the buffer of a number
holds before it is written, and the file of the memos. -/
structure Setup where
  nullOn : Bool
  dfpiOn : Bool
  epoch : Nat
  sprintf : Nat → Nat → Float → List UInt8
  strtod : List UInt8 → Option Float
  temp : Nat → UInt8
  dbtFd : Nat

/-- Errors, and three ways to leave what C defines: a buffer is written or read beyond its end, the bytes of a NULL are read
that are not there, or a date is no date of the calendar. -/
inductive StoreErr where
  | undefField | dbAccess | typeMismatch | invalidType | badFieldType
  | record (e : DbErr)
  | value (e : HbErr)
  | overrun | stale | noDate
  deriving DecidableEq, Repr

/-! ## Fields by name -/

/-- `namecmp(f->name, name, len, ID_VNAME)` is 0. -/
def hasName (name : Str) (f : OpenField) : Bool :=
  namecmp (f.name.map fun c => Char.ofNat c.toNat) name name.length ID_VNAME = 0

/-- The fields with their offsets, from offset `n` on. -/
def layout : List OpenField → Nat → List (OpenField × Nat)
  | [], _ => []
  | f :: fs, n => (f, n) :: layout fs (n + f.width)

/-- `findfld(0, &n)`; the caller begins with 1, behind the mark. -/
def findfld (name : Str) : List OpenField → Nat → Option (OpenField × Nat)
  | [], _ => none
  | f :: fs, n => if hasName name f then some (f, n) else findfld name fs (n + f.width)

/-- The bytes of a record from offset `n` on. -/
def bytesAt (r : Rec) (n len : Nat) : List UInt8 := (r.data.drop (n - 1)).take len

def blanks (n : Nat) : List UInt8 := List.replicate n BLANK

/-! ## From a value to text -/

/-- `temp` once a text is in it, as far as `len` bytes of it are copied. -/
def tempBytes (temp : Nat → UInt8) (text : List UInt8) (len : Nat) : List UInt8 :=
  (text ++ 0 :: (List.range' (text.length + 1) (MAXDIGITS - text.length - 1)).map temp).take len

/-- `number_to_date(1, d, dd)`. -/
def dbDate (d : Nat) : Option (List UInt8) :=
  (nToMdy d).map fun mdy => Decimal.padZero 4 mdy.2.2 ++ (Decimal.padZero 2 mdy.1 ++ Decimal.padZero 2 mdy.2.1)

/-- The bytes that `dbstore` copies to a field of blanks. The type of a field of a number is not looked at. -/
def fieldText (s : Setup) (f : OpenField) (v : HbVal) : Except StoreErr (List UInt8) :=
  match v with
  | .charctr str => if f.ftype ≠ 67 then .error .typeMismatch else .ok (str.take f.width)
  | .logic b =>
    if f.ftype ≠ 76 then .error .typeMismatch
    else match b with
      | none => .error .stale
      | some b => .ok [if b then 84 else 70]
  | .number num =>
    match num2str s.sprintf num f.tlength f.dlength.toNat with
    | none => .error .stale
    | some text => if text.length < MAXDIGITS ∧ f.width ≤ MAXDIGITS then .ok (tempBytes s.temp text f.width) else .error .overrun
  | .date d =>
    if f.ftype ≠ 68 then .error .typeMismatch
    else match d with
      | none => .error .stale
      | some d =>
        if d = 0 then .ok []
        else match dbDate d.toNat with
          | none => .error .noDate
          | some text => if text.length ≤ DATELEN then .ok text else .error .overrun
  | .other _ _ => .error .invalidType

variable {σ : Type}

/-- `get_db_rec`: a record that is not locked is read again. -/
def getDbRec (locked : Bool) (t : Tbl σ) : Except DbErr (Tbl σ) := if locked then .ok t else gorec t.crntrec t

/-- The record is saved before its first change. -/
def saved (t : Tbl σ) : Except DbErr (Tbl σ) := if t.rbkRecno = t.crntrec then .ok t else saveRec .update t

/-- The field at `n`, with a text in front of blanks. -/
def stored (f : OpenField) (n : Nat) (text : List UInt8) : Store := ⟨n - 1, text ++ blanks (f.width - text.length)⟩

/-- `dbstore`, for the value and the name on the stack. What an error leaves in the record is not looked at. -/
def dbstore (s : Setup) (locked : Bool) (fdlist : List OpenField) (name : Str) (v : HbVal) (t : Tbl σ) : Except StoreErr (Tbl σ) :=
  if t.etof then .ok t
  else
    match findfld name fdlist 1 with
    | none => .error .undefField
    | some (f, n) =>
      if f.x0 &&& HBMODIFY = 0 then .error .dbAccess
      else
        match getDbRec locked t >>= saved with
        | .error e => .error (.record e)
        | .ok t =>
          match fieldText s f v with
          | .error e => .error e
          | .ok text => .ok { t with buf := { t.buf with data := (stored f n text).put t.buf.data } }

/-! ## From text to a value -/

/-- `atoi` and `atol`. -/
def atoi (s : List UInt8) : Int := applySign (lead s).1 (Decimal.value (intDigits s))

/-- `date_to_number` of the three slices of a text. Negative numbers, and months beyond the table of their lengths, are left out. -/
def dateOf (epoch : Nat) (p : List UInt8) : Except StoreErr UInt32 :=
  let year := atoi (p.take 4)
  let month := atoi ((p.drop 4).take 2)
  let day := atoi ((p.drop 6).take 2)
  if 0 ≤ year ∧ 0 ≤ day ∧ 1 ≤ month ∧ month ≤ 12 then .ok (UInt32.ofNat (dateToNumber epoch day.toNat month.toNat year.toNat)) else .error .noDate

/-- The value of a field that is not NULL. -/
def fieldValue (s : Setup) (f : OpenField) (p : List UInt8) : Except StoreErr HbVal :=
  if f.ftype = 77 then .ok (.other .memo (word 4 s.dbtFd ++ (word 8 (atoi (cstr p) % 2 ^ 64).toNat ++ word 8 (2 ^ 64 - 1))))
  else if f.ftype = 78 then
    match Misc.str2num s.dfpiOn s.strtod (cstr p) with
    | .error e => .error (.value e)
    | .ok num => .ok (.number num)
  else if f.ftype = 67 then .ok (.charctr p)
  else if f.ftype = 76 then .ok (.logic (some (p.headD 0 = 89 || p.headD 0 = 84)))
  else if f.ftype = 68 then
    if p.take 8 = blanks 8 then .ok (.date (some 0))
    else match dateOf s.epoch p with
      | .error e => .error e
      | .ok d => .ok (.date (some d))
  else .error .badFieldType

def nullValue (f : OpenField) : Except StoreErr HbVal :=
  if f.ftype = 77 then .ok (.other .memo [])
  else if f.ftype = 78 then .ok (.number .null)
  else if f.ftype = 67 then .ok (.charctr [])
  else if f.ftype = 76 then .ok (.logic none)
  else if f.ftype = 68 then .ok (.date none)
  else .error .badFieldType

/-- `dbretriv`, for the name on the stack; `none` when there is no such field to read. -/
def dbretriv (s : Setup) (fdlist : List OpenField) (name : Str) (t : Tbl σ) : Except StoreErr (Option HbVal) :=
  match findfld name fdlist 1 with
  | none => .ok none
  | some (f, n) =>
    if f.x0 &&& HBREAD = 0 then .ok none
    else
      let p := if t.etof then blanks f.width else bytesAt t.buf n f.width
      if p = blanks f.width ∧ s.nullOn then (nullValue f).map some else (fieldValue s f p).map some

/-! ## What is read back -/

/-- The number has a text with `k` decimals that stands for it and fits into `len` characters. -/
def Exact (x : Fixed) (len k : Nat) : Prop := x.shownVal k = x.val ∧ (x.shown k).length ≤ len

/-- The values of the type of a field that are to survive in it. -/
inductive Belongs (epoch : Nat) (f : OpenField) : HbVal → Prop where
  | charctr (s : List UInt8) (hf : f.ftype = 67) (hs : s ≠ []) : Belongs epoch f (.charctr s)
  | logic (b : Bool) (hf : f.ftype = 76) : Belongs epoch f (.logic (some b))
  | number (x : Fixed) (hf : f.ftype = 78) (hx : Exact x f.width f.dlength.toNat) : Belongs epoch f (.number x.num)
  | date (d : UInt32) (y m day : Nat) (hf : f.ftype = 68) (hd : nToMdy d.toNat = some (m, day, y)) (h100 : 100 ≤ y) (h9999 : y ≤ 9999)
      (hback : dateToNumber epoch day m y = d.toNat) : Belongs epoch f (.date (some d))

/-- What may be read where a value was stored: a string cut off or filled up with blanks, a number of the same value, else the same. -/
def ReadAs (f : OpenField) (v w : HbVal) : Prop :=
  match v with
  | .charctr s => w = .charctr (s.take f.width ++ blanks (f.width - s.length))
  | .number (.fixed n d) => ∃ n' d', w = .number (.fixed n' d') ∧ (n'.toInt : ℚ) / 10 ^ d' = (n.toInt : ℚ) / 10 ^ d
  | v => w = v

/-- The value goes into the field and comes back, and no other field changes. -/
def RoundTrip (s : Setup) (locked : Bool) (fdlist : List OpenField) (name : Str) (v : HbVal) (t : Tbl σ) : Prop :=
  ∃ f n t₁ t' w, findfld name fdlist 1 = some (f, n) ∧ getDbRec locked t = .ok t₁ ∧ dbstore s locked fdlist name v t = .ok t' ∧
    dbretriv s fdlist name t' = .ok (some w) ∧ ReadAs f v w ∧
    ∀ g ∈ layout fdlist 1, g.2 ≠ n → bytesAt t'.buf g.2 g.1.width = bytesAt t₁.buf g.2 g.1.width

/-- The bytes of all fields. -/
def totalWidth (fdlist : List OpenField) : Nat := (fdlist.map OpenField.width).sum

/-- A current record whose field `f` is to be replaced by a value: the fields are valid and make up the record, the rights to
the field are there, and the record can be read and saved. -/
structure Ready (s : Setup) (locked : Bool) (fdlist : List OpenField) (name : Str) (f : OpenField) (n : Nat) (v : HbVal) (t : Tbl σ) : Prop where
  current : t.etof = false
  valid : ∀ g ∈ fdlist, isValidField g.toField = true ∧ 0 ≤ g.dlength
  size : ∀ t₁, getDbRec locked t = .ok t₁ → t₁.buf.data.length = totalWidth fdlist
  found : findfld name fdlist 1 = some (f, n)
  readable : f.x0 &&& HBREAD ≠ 0
  modifiable : f.x0 &&& HBMODIFY ≠ 0
  saved : ∃ t₁ t', getDbRec locked t = .ok t₁ ∧ saved t₁ = .ok t'
  dfpi : s.dfpiOn = true
  belongs : Belongs s.epoch f v

/-- The text of the value could be taken for NULL. -/
def TakenForNull (s : Setup) (f : OpenField) (v : HbVal) : Prop := s.nullOn = true ∧ ∃ str, v = .charctr str ∧ str.take f.width = blanks (str.take f.width).length

/-- The text of a number is shorter than the buffer it is made in. A number below one is not filled up to the width. -/
def TextFits (f : OpenField) (v : HbVal) : Prop :=
  ∀ x : Fixed, v = .number x.num → f.width < MAXDIGITS ∨ (¬x.Large ∧ f.dlength ≠ 0 ∧ (x.shown f.dlength.toNat).length < MAXDIGITS)

/-! ## Records and their fields -/

section Layout

variable {fs : List OpenField} {name : Str} {n m : Nat} {p q : OpenField × Nat} {r : Rec}

theorem findfld_mem (h : findfld name fs n = some p) : p ∈ layout fs n := by
  induction fs generalizing n with
  | nil => cases h
  | cons f fs ih =>
    unfold findfld at h
    split at h
    · rw [← Option.some.inj h]
      exact List.mem_cons_self
    · exact List.mem_cons_of_mem _ (ih h)

theorem layout_bounds (h : p ∈ layout fs n) : p.1 ∈ fs ∧ n ≤ p.2 ∧ p.2 + p.1.width ≤ n + totalWidth fs := by
  induction fs generalizing n with
  | nil => cases h
  | cons f fs ih =>
    have htotal : totalWidth (f :: fs) = f.width + totalWidth fs := rfl
    rcases List.mem_cons.mp h with rfl | h
    · exact ⟨List.mem_cons_self, le_rfl, by dsimp only; omega⟩
    · obtain ⟨hmem, hlo, hhi⟩ := ih h
      exact ⟨List.mem_cons_of_mem _ hmem, by omega, by omega⟩

/-- Fields do not overlap. -/
theorem layout_disjoint (hp : p ∈ layout fs n) (hq : q ∈ layout fs n) (hne : q.2 ≠ p.2) :
    q.2 + q.1.width ≤ p.2 ∨ p.2 + p.1.width ≤ q.2 := by
  induction fs generalizing n with
  | nil => cases hp
  | cons f fs ih =>
    rcases List.mem_cons.mp hp with rfl | hp
    · rcases List.mem_cons.mp hq with rfl | hq
      · exact absurd rfl hne
      · exact .inr (layout_bounds hq).2.1
    · rcases List.mem_cons.mp hq with rfl | hq
      · exact .inl (layout_bounds hp).2.1
      · exact ih hp hq

variable {st : Store}

theorem put_at (h : st.offset + st.bytes.length ≤ r.data.length) (hn : n - 1 = st.offset) :
    bytesAt { r with data := st.put r.data } n st.bytes.length = st.bytes := by
  have htake : (r.data.take st.offset).length = st.offset := by
    rw [List.length_take]
    omega
  unfold bytesAt Store.put
  rw [hn, List.append_assoc, List.drop_left' htake, List.take_left' rfl]

/-- What lies in front of what is written, or behind it, is not changed. -/
theorem put_other (h : st.offset + st.bytes.length ≤ r.data.length)
    (hd : n - 1 + m ≤ st.offset ∨ st.offset + st.bytes.length ≤ n - 1) :
    bytesAt { r with data := st.put r.data } n m = bytesAt r n m := by
  have hlen : (r.data.take st.offset).length = st.offset := by
    rw [List.length_take]
    omega
  unfold bytesAt Store.put
  dsimp only
  rcases hd with hd | hd
  · rw [List.append_assoc, List.drop_append_of_le_length (by omega), List.take_append_of_le_length (by rw [List.length_drop]; omega),
      List.drop_take, List.take_take, min_eq_left (by omega)]
  · obtain ⟨i, hi⟩ := Nat.exists_eq_add_of_le hd
    have hlen' : (r.data.take st.offset ++ st.bytes).length = st.offset + st.bytes.length := by rw [List.length_append, hlen]
    rw [hi, List.drop_append, List.drop_of_length_le (by omega), hlen', Nat.add_sub_cancel_left, List.drop_drop, List.nil_append]

end Layout

section Saved

variable {t t' : Tbl σ} {locked : Bool}

theorem gorec_etof {recno : Nat} (h : gorec recno t = .ok t') : t'.etof = t.etof := by
  unfold gorec at h
  split at h
  · cases h
    rfl
  split at h
  · split at h
    · cases h
      rfl
    · cases h
  · cases h
    rfl

theorem getDbRec_etof (h : getDbRec locked t = .ok t') : t'.etof = t.etof := by
  unfold getDbRec at h
  split at h
  · cases h
    rfl
  · exact gorec_etof h

/-- Saving a record may set its mark, and changes nothing else of it. -/
theorem saved_spec (h : saved t = .ok t') : t'.buf.data = t.buf.data ∧ t'.etof = t.etof := by
  unfold saved at h
  split at h
  · cases h
    exact ⟨rfl, rfl⟩
  · unfold saveRec at h
    rw [if_pos rfl] at h
    split at h
    · cases h
    split at h
    · cases h
    split at h
    · cases h
    dsimp only at h
    split at h
    · cases h
      exact ⟨rfl, rfl⟩
    · cases h
      exact ⟨rfl, rfl⟩

end Saved

/-! ## Numbers -/

section Number

open Decimal

variable {x : Fixed} {len k w : Nat}

/-- With its decimals the number is not rounded. -/
theorem Exact.rounded (hx : Exact x len k) : x.rounded k * 10 ^ x.deci = x.mag * 10 ^ k := by
  have habs := congrArg abs hx.1
  have hsign : ∀ (b : Bool) (a : Nat), |((applySign b a : Int) : ℚ)| = a := by
    intro b a
    cases b <;> simp [applySign]
  rw [Fixed.abs_val, Fixed.shownVal, abs_div, hsign, abs_of_pos (show (0 : ℚ) < 10 ^ k by positivity),
    div_eq_div_iff (by positivity) (by positivity)] at habs
  exact_mod_cast habs

theorem Exact.frac (hx : Exact x len k) : x.frac k * 10 ^ x.deci = x.rest * 10 ^ k := by
  have h := hx.rounded
  rw [x.rounded_eq, x.mag_eq, Nat.add_mul, Nat.add_mul, Nat.mul_right_comm] at h
  exact Nat.add_left_cancel h

theorem Exact.frac_lt (hx : Exact x len k) : x.frac k < 10 ^ k := by
  have h := hx.frac
  refine lt_of_mul_lt_mul_right ?_ (Nat.zero_le (10 ^ x.deci))
  rw [h, Nat.mul_comm (10 ^ k)]
  exact Nat.mul_lt_mul_of_pos_right x.rest_lt (Fixed.ten_pow_pos k)

theorem Exact.not_carry (hx : Exact x len k) : ¬x.Carry k := hx.frac_lt.ne

/-- A text bounds the number that it shows. -/
theorem rounded_lt (hk : 1 ≤ k) (h : (x.shown k).length ≤ w + 1) : x.rounded k < 10 ^ w := by
  unfold Fixed.shown at h
  rw [if_neg (show k ≠ 0 by omega), List.length_append, List.length_append, List.length_cons,
    length_padZero_eq hk (Nat.mod_lt _ (Fixed.ten_pow_pos k))] at h
  have hint : (decimal (x.rounded k / 10 ^ k)).length ≤ w - k := by omega
  have hpos := length_decimal_pos (x.rounded k / 10 ^ k)
  rw [length_decimal_le (by omega), Nat.div_lt_iff_lt_mul (Fixed.ten_pow_pos k), ← pow_add, Nat.sub_add_cancel (by omega)] at hint
  exact hint

/-- The number whose magnitude is no `long` has more digits than there is room for. -/
theorem Exact.mag_lt (hx : Exact x len k) (hk : 1 ≤ k) (hlen : (x.shown k).length ≤ 19) : x.mag < 2 ^ 63 := by
  have hle : x.mag ≤ 2 ^ 63 := by
    have h1 := x.n.le_toInt
    have h2 := x.n.toInt_lt
    unfold Fixed.mag
    omega
  refine lt_of_le_of_ne hle fun hmag => ?_
  have hlt := rounded_lt (w := 18) hk hlen
  have h := hx.rounded
  rw [hmag] at h
  rcases le_or_gt x.deci k with hd | hd
  · obtain ⟨i, rfl⟩ := Nat.exists_eq_add_of_le hd
    rw [pow_add, Nat.mul_comm (10 ^ x.deci), ← Nat.mul_assoc] at h
    have hr := Nat.mul_right_cancel (Fixed.ten_pow_pos _) h
    have := Nat.le_mul_of_pos_right (2 ^ 63) (Fixed.ten_pow_pos i)
    omega
  · obtain ⟨i, hi⟩ := Nat.exists_eq_add_of_lt hd
    rw [hi, Nat.add_assoc, pow_add, Nat.mul_comm (10 ^ k), ← Nat.mul_assoc] at h
    have hr := Nat.mul_right_cancel (Fixed.ten_pow_pos _) h
    rw [pow_succ, ← Nat.mul_assoc] at hr
    omega

/-- What `num2str` writes of a number that is exact. -/
theorem num2str_exact (fmt : Nat → Nat → Float → List UInt8) (hx : Exact x len k) (h1 : 1 ≤ len) (h20 : len ≤ MAXDIGITS) (hk : k < len)
    (hfit : len < MAXDIGITS ∨ (¬x.Large ∧ k ≠ 0 ∧ (x.shown k).length < MAXDIGITS)) :
    ∃ w, num2str fmt x.num len k = some (padLeft w (x.shown k)) ∧ (padLeft w (x.shown k)).length ≤ len ∧
      (padLeft w (x.shown k)).length < MAXDIGITS := by
  have hmax : MAXDIGITS = 20 := rfl
  have hshort : (x.shown k).length ≤ 19 := by
    have := hx.2
    omega
  have hwidth : min (len : Int).toNat Hb.MAXDIGITS = len := by
    rw [Int.toNat_natCast]
    exact min_eq_left h20
  have hstart : num2str fmt x.num len k = some (if k ≠ 0 then retry len (deciText fmt x.num len) (nodeci fmt x.num len len) k else nodeci fmt x.num len len) := by
    unfold num2str Fixed.num
    dsimp only
    rw [if_neg (by omega), hwidth]
  rw [hstart]
  by_cases hk0 : k = 0
  · -- no decimals: the number is an integer
    subst hk0
    have hfrac : x.frac 0 = 0 := by
      have := hx.frac_lt
      omega
    have hwhole := x.wholeText_eq_shown_iff.mpr fun _ => hfrac
    have hlen : (padLeft len (x.shown 0)).length = len := by rw [length_padLeft, max_eq_left hx.2]
    refine ⟨len, ?_, hlen.le, by omega⟩
    rw [if_neg (not_not.mpr rfl), x.nodeci_eq, hwhole, if_neg (by omega)]
  · have hmag := hx.mag_lt (by omega) hshort
    have hover : ¬x.Over k := by
      refine not_or.mpr ⟨hx.not_carry, ?_⟩
      have hpow : 10 ^ k ≤ 10 ^ 18 := Nat.pow_le_pow_right (by omega) ?_
      · have := hx.frac_lt
        omega
      · have hlong := x.length_shown k
        rw [if_neg hk0] at hlong
        omega
    rw [if_pos hk0]
    by_cases hlarge : x.Large
    · have hlen := hx.2
      have htext : deciText fmt x.num len k = padLeft len (x.shown k) := by
        refine x.deciText_large_eq fmt hmag hlarge (by omega) (by omega) hover ?_
        rw [x.length_shown_large hlarge, if_neg hx.not_carry, if_neg hk0] at hlen
        omega
      have hpad : (padLeft len (x.shown k)).length = len := by rw [length_padLeft, max_eq_left hlen]
      have hlt : len < MAXDIGITS := hfit.resolve_right fun h => h.1 hlarge
      refine ⟨len, ?_, hpad.le, hpad.trans_lt hlt⟩
      rw [retry_done _ (by rw [htext, hpad]), htext]
    · have htext : deciText fmt x.num len k = padLeft 0 (x.shown k) := by
        rw [x.deciText_small_eq fmt hmag hlarge (by omega) (by omega) hover, padLeft_of_le (Nat.zero_le _)]
      have hpad : (padLeft 0 (x.shown k)).length = (x.shown k).length := by rw [length_padLeft, Nat.max_eq_right (Nat.zero_le _)]
      refine ⟨0, ?_, hpad.trans_le hx.2, by omega⟩
      rw [retry_done _ (by rw [htext, hpad]; exact hx.2), htext]

/-- The digits of a text that is short enough are a `long`. -/
theorem Exact.rounded_lt_long (hx : Exact x len k) (hlen : (x.shown k).length ≤ 19) : x.rounded k < 2 ^ 63 := by
  by_cases hk : k = 0
  · subst hk
    by_contra hge
    have h := hx.rounded
    have hpow := Nat.le_mul_of_pos_right (x.rounded 0) (Fixed.ten_pow_pos x.deci)
    have h1 := x.n.le_toInt
    have h2 := x.n.toInt_lt
    -- it is the smallest number, and its sign and digits are twenty characters
    have hneg : x.Negative 0 := by
      refine ⟨?_, by omega⟩
      rw [neg_iff]
      unfold Fixed.mag at h
      omega
    have hdigits : ¬(decimal (x.rounded 0 / 10 ^ 0)).length ≤ 18 := by
      rw [length_decimal_le (by omega), pow_zero, Nat.div_one]
      omega
    unfold Fixed.shown at hlen
    rw [if_pos hneg, List.length_append, List.length_append, List.length_singleton] at hlen
    omega
  · have := rounded_lt (w := 18) (Nat.pos_of_ne_zero hk) hlen
    omega

/-- The sign and the digits behind blanks. -/
theorem lead_padded (b : Prop) [Decidable b] (m : Nat) {ds : List UInt8} (h : ds.takeWhile Decimal.isDigit ≠ []) :
    lead (List.replicate m BLANK ++ (Fixed.sign b ++ ds)) = (decide b, ds) := by
  have hblank : (List.replicate m BLANK).dropWhile isspace = [] := by
    rw [List.dropWhile_eq_nil_iff]
    intro c hc
    rw [List.eq_of_mem_replicate hc]
    rfl
  rw [lead_blanks hblank]
  unfold Fixed.sign
  by_cases hb : b
  · rw [if_pos hb, decide_eq_true hb]
    unfold lead
    rw [List.singleton_append, List.dropWhile_cons_of_neg (by decide)]
    rfl
  · rw [if_neg hb, decide_eq_false hb, List.nil_append, lead_digits h]

/-- What no text of a number holds. -/
theorem not_mem_text {c : UInt8} (hb : c ≠ BLANK) (hm : c ≠ MINUS) (hp : c ≠ POINT) (hd : Decimal.isDigit c = false) : c ∉ padLeft w (x.shown k) := by
  refine Fixed.not_mem_padLeft hb ?_
  rw [Fixed.shown_eq, List.mem_append, List.mem_append, not_or, not_or]
  refine ⟨⟨Fixed.not_mem_sign hm, Fixed.not_mem_decimal hd⟩, ?_⟩
  split
  · exact List.not_mem_nil
  · rw [List.mem_cons, not_or]
    exact ⟨hp, Fixed.not_mem_padZero hd⟩

/-- The text of an exact number is read as that number. -/
theorem str2num_exact (strtod : List UInt8 → Option Float) (hx : Exact x len k) (hlen : (x.shown k).length ≤ 19) :
    ∃ n, Misc.str2num true strtod (padLeft w (x.shown k)) = .ok (.fixed n k) ∧ (n.toInt : ℚ) / 10 ^ k = x.val := by
  have hlong := hx.rounded_lt_long hlen
  -- any digits that stand for the numerator are read as it
  have hread : ∀ (m : Nat) (ds : List UInt8), (∀ c ∈ ds, Decimal.isDigit c = true) → ds ≠ [] → Decimal.value ds = x.rounded k →
      ∃ n, Misc.strtoul (List.replicate m BLANK ++ (Fixed.sign (x.Negative k) ++ ds)) = some n ∧ (n.toInt : ℚ) / 10 ^ k = x.val := by
    intro m ds hds hne hval
    have htake : ds.takeWhile Decimal.isDigit = ds := List.takeWhile_eq_self_iff.mpr hds
    have hlead := @lead_padded (x.Negative k) _ m ds (by rwa [htake])
    have hint : intDigits (List.replicate m BLANK ++ (Fixed.sign (x.Negative k) ++ ds)) = ds := by
      unfold intDigits
      rw [hlead, htake]
    obtain ⟨n, hn, hint'⟩ := strtoul_eq (s := List.replicate m BLANK ++ (Fixed.sign (x.Negative k) ++ ds)) (by rw [hint, hval]; exact hlong)
    refine ⟨n, hn, ?_⟩
    rw [hint', hint, hval, hlead, ← hx.1]
    rfl
  have hexp : ¬(101 ∈ padLeft w (x.shown k) ∨ 69 ∈ padLeft w (x.shown k)) :=
    not_or.mpr ⟨not_mem_text (by decide) (by decide) (by decide) rfl, not_mem_text (by decide) (by decide) (by decide) rfl⟩
  unfold Misc.str2num
  dsimp only
  rw [if_neg (by simp), if_neg hexp]
  by_cases hk : k = 0
  · subst hk
    have hshown : x.shown 0 = Fixed.sign (x.Negative 0) ++ decimal (x.rounded 0) := by
      unfold Fixed.shown
      rw [if_pos rfl, List.append_nil, pow_zero, Nat.div_one]
      rfl
    have hpoint : POINT ∉ padLeft w (x.shown 0) := by
      rw [hshown]
      exact Fixed.not_mem_padLeft (by decide) (Fixed.point_not_mem_int _ _)
    obtain ⟨n, hn, hval⟩ := hread (w - (x.shown 0).length) (decimal (x.rounded 0)) (fun c hc => isDigit_decimal hc)
      (List.length_pos_iff.mp (length_decimal_pos _)) (value_decimal _)
    rw [if_neg hpoint]
    unfold padLeft
    rw [hshown] at hn ⊢
    rw [hn]
    exact ⟨n, rfl, hval⟩
  · have hmod : x.rounded k % 10 ^ k < 10 ^ k := Nat.mod_lt _ (Fixed.ten_pow_pos k)
    have hplaces := length_padZero_eq (Nat.pos_of_ne_zero hk) hmod
    have hshown : padLeft w (x.shown k) =
        (List.replicate (w - (x.shown k).length) BLANK ++ (Fixed.sign (x.Negative k) ++ decimal (x.rounded k / 10 ^ k))) ++
          POINT :: padZero k (x.rounded k % 10 ^ k) := by
      have hbody : x.shown k = Fixed.sign (x.Negative k) ++ decimal (x.rounded k / 10 ^ k) ++ POINT :: padZero k (x.rounded k % 10 ^ k) := by
        unfold Fixed.shown
        rw [if_neg hk]
        rfl
      rw [List.append_assoc, ← hbody]
      rfl
    have hpoint : POINT ∉ List.replicate (w - (x.shown k).length) BLANK ++ (Fixed.sign (x.Negative k) ++ decimal (x.rounded k / 10 ^ k)) := by
      rw [List.mem_append, not_or]
      exact ⟨fun h => absurd (List.eq_of_mem_replicate h) (by decide), Fixed.point_not_mem_int _ _⟩
    have hle : k ≤ DECI_MAX := by
      have := x.length_shown k
      rw [if_neg hk] at this
      change k ≤ 18
      omega
    obtain ⟨n, hn, hval⟩ := hread (w - (x.shown k).length) (decimal (x.rounded k / 10 ^ k) ++ padZero k (x.rounded k % 10 ^ k))
      (by
        intro c hc
        rcases List.mem_append.mp hc with hc | hc
        · exact isDigit_decimal hc
        · exact isDigit_padZero hc)
      (List.append_ne_nil_of_left_ne_nil (List.length_pos_iff.mp (length_decimal_pos _)) _)
      (by rw [value_append, value_decimal, value_padZero, hplaces, Nat.div_add_mod'])
    rw [hshown, if_pos (List.mem_append_right _ List.mem_cons_self), beforePoint_append hpoint, afterPoint_append hpoint, hplaces, if_neg (by omega),
      List.append_assoc, List.append_assoc, hn]
    exact ⟨n, rfl, hval⟩

end Number

/-! ## Texts of fields -/

section Text

variable {s : Setup} {f : OpenField} {v : HbVal} {text : List UInt8} {len : Nat}

theorem length_blanks (n : Nat) : (blanks n).length = n := List.length_replicate

/-- In `temp` a text is followed by its NUL, unless it takes all that is copied. -/
theorem tempBytes_eq (temp : Nat → UInt8) (h : text.length < MAXDIGITS) (hle : text.length ≤ len) (hlen : len ≤ MAXDIGITS) :
    (tempBytes temp text len).length = len ∧ (tempBytes temp text len = text ∨ ∃ r, tempBytes temp text len = text ++ 0 :: r) := by
  unfold tempBytes
  refine ⟨?_, ?_⟩
  · rw [List.length_take, List.length_append, List.length_cons, List.length_map, List.length_range']
    omega
  · obtain ⟨i, rfl⟩ := Nat.exists_eq_add_of_le hle
    rw [List.take_length_add_append]
    rcases Nat.eq_zero_or_pos i with rfl | hi
    · exact .inl (by rw [List.take_zero, List.append_nil])
    · obtain ⟨j, rfl⟩ := Nat.exists_eq_succ_of_ne_zero hi.ne'
      exact .inr ⟨_, rfl⟩

theorem cstr_tempBytes (temp : Nat → UInt8) (h : text.length < MAXDIGITS) (hle : text.length ≤ len) (hlen : len ≤ MAXDIGITS) (h0 : 0 ∉ text) :
    cstr (tempBytes temp text len) = text := by
  rcases (tempBytes_eq temp h hle hlen).2 with heq | ⟨r, heq⟩
  · rw [heq, cstr_eq_self h0]
  · rw [heq, cstr_append h0]

theorem findMonth_bounds {leap : Bool} {fuel mm dd m day : Nat} (h : findMonth leap fuel mm dd = some (m, day)) :
    mm ≤ m ∧ m < mm + fuel ∧ day ≤ 31 := by
  induction fuel generalizing mm dd with
  | zero => cases h
  | succ fuel ih =>
    unfold findMonth at h
    split at h
    · rename_i hdd
      have hdays : daysIn leap mm ≤ 31 := by
        unfold daysIn
        split
        · cases leap <;> decide
        all_goals decide
      cases h
      exact ⟨le_rfl, by omega, hdd.trans hdays⟩
    · obtain ⟨h1, h2, h3⟩ := ih h
      exact ⟨by omega, by omega, h3⟩

theorem nToMdy_bounds {d m day y : Nat} (h : nToMdy d = some (m, day, y)) (hy : y ≠ 0) : 1 ≤ m ∧ m ≤ 12 ∧ day ≤ 31 := by
  unfold nToMdy at h
  dsimp only at h
  split at h
  · cases h
    exact absurd rfl hy
  · obtain ⟨⟨m', day'⟩, hfind, heq⟩ := Option.map_eq_some_iff.mp h
    cases heq
    obtain ⟨h1, h2, h3⟩ := findMonth_bounds hfind
    exact ⟨h1, by omega, h3⟩

theorem atoi_padZero (w n : Nat) : atoi (Decimal.padZero w n) = n := by
  have htake : (Decimal.padZero w n).takeWhile Decimal.isDigit = Decimal.padZero w n := List.takeWhile_eq_self_iff.mpr fun c hc => Decimal.isDigit_padZero hc
  have hne : Decimal.padZero w n ≠ [] := by
    refine List.length_pos_iff.mp ?_
    have := Decimal.length_decimal_pos n
    rw [Decimal.length_padZero]
    omega
  have hlead := lead_digits (a := Decimal.padZero w n) (by rwa [htake])
  unfold atoi intDigits
  rw [hlead, htake, Decimal.value_padZero]
  rfl

/-- A text with a digit in it is not blank. -/
theorem ne_blanks {c : UInt8} {n : Nat} (hc : c ∈ text) (hd : Decimal.isDigit c = true) : text ≠ blanks n := by
  rintro rfl
  rw [List.eq_of_mem_replicate hc] at hd
  exact Bool.false_ne_true hd

/-- The text that a value becomes, and what becomes of the text. -/
structure Kept (s : Setup) (f : OpenField) (v : HbVal) (text : List UInt8) : Prop where
  made : fieldText s f v = .ok text
  fits : text.length ≤ f.width
  read : ∃ w, fieldValue s f (text ++ blanks (f.width - text.length)) = .ok w ∧ ReadAs f v w
  null : text ++ blanks (f.width - text.length) = blanks f.width → ∃ str, v = .charctr str ∧ str.take f.width = blanks (str.take f.width).length

theorem kept_charctr (str : List UInt8) (hf : f.ftype = 67) : Kept s f (.charctr str) (str.take f.width) := by
  have hlen : (str.take f.width).length = min f.width str.length := List.length_take
  refine ⟨if_neg (not_not.mpr hf), by omega, ⟨_, ?_, rfl⟩, fun h => ⟨str, rfl, ?_⟩⟩
  · unfold fieldValue
    rw [hf, if_neg (by decide), if_neg (by decide), if_pos rfl, hlen, show f.width - min f.width str.length = f.width - str.length by omega]
  · exact (List.append_eq_replicate_iff.mp h).2.1

theorem kept_logic (b : Bool) (hf : f.ftype = 76) (hw : f.width = 1) : Kept s f (.logic (some b)) [if b then 84 else 70] := by
  have hread : ∀ c : UInt8, [c] ++ blanks (f.width - [c].length) = [c] := by
    intro c
    rw [hw]
    rfl
  refine ⟨if_neg (not_not.mpr hf), hw.ge, ⟨.logic (some b), ?_, rfl⟩, fun h => ?_⟩
  · unfold fieldValue
    rw [hf, if_neg (by decide), if_neg (by decide), if_neg (by decide), if_pos rfl, hread]
    cases b <;> rfl
  · rw [hread, hw] at h
    cases b <;> exact absurd (List.cons.inj h).1 (by decide)

theorem kept_number {x : Fixed} (hs : s.dfpiOn = true) (hf : f.ftype = 78) (hx : Exact x f.width f.dlength.toNat) (h1 : 1 ≤ f.width)
    (h20 : f.width ≤ MAXDIGITS) (hd : 0 ≤ f.dlength) (hlt : f.dlength < f.tlength) (hfit : TextFits f (.number x.num)) :
    ∃ text, Kept s f (.number x.num) text := by
  have hwidth : f.tlength = (f.width : Int) := by
    unfold OpenField.width at h1 ⊢
    omega
  have hmax : MAXDIGITS = 20 := rfl
  have hfit' : f.width < MAXDIGITS ∨ (¬x.Large ∧ f.dlength.toNat ≠ 0 ∧ (x.shown f.dlength.toNat).length < MAXDIGITS) :=
    (hfit x rfl).imp id fun h => ⟨h.1, by omega, h.2.2⟩
  obtain ⟨w, htext, hle, hshort⟩ := num2str_exact s.sprintf hx h1 h20 (by omega) hfit'
  have h19 : (x.shown f.dlength.toNat).length ≤ 19 := by
    rw [length_padLeft] at hshort
    omega
  obtain ⟨n, hread, hval⟩ := str2num_exact (w := w) s.strtod hx h19
  have hcstr := cstr_tempBytes s.temp hshort hle h20 (not_mem_text (by decide) (by decide) (by decide) rfl)
  have hlen := (tempBytes_eq s.temp hshort hle h20).1
  have hbytes : ∀ l : List UInt8, l.length = f.width → l ++ blanks (f.width - l.length) = l := by
    intro l hl
    rw [hl, Nat.sub_self]
    exact List.append_nil _
  refine ⟨tempBytes s.temp (padLeft w (x.shown f.dlength.toNat)) f.width, ?_, hlen.le, ⟨.number (.fixed n f.dlength.toNat), ?_, n, _, rfl, hval⟩, fun h => ?_⟩
  · unfold fieldText
    dsimp only
    rw [hwidth, htext]
    exact if_pos ⟨hshort, h20⟩
  · unfold fieldValue
    rw [hf, if_neg (by decide), if_pos rfl, hbytes _ hlen, hcstr, hs, hread]
  · -- there is a digit in the text
    rw [hbytes _ hlen] at h
    obtain ⟨c, hc⟩ := List.exists_mem_of_length_pos (Decimal.length_decimal_pos (x.top f.dlength.toNat))
    have hmem : c ∈ padLeft w (x.shown f.dlength.toNat) := by
      refine List.mem_append_right _ ?_
      rw [Fixed.shown_eq]
      exact List.mem_append_left _ (List.mem_append_right _ hc)
    have hmem' : c ∈ tempBytes s.temp (padLeft w (x.shown f.dlength.toNat)) f.width := by
      rw [← hcstr] at hmem
      exact (List.takeWhile_sublist _).subset hmem
    exact absurd h (ne_blanks hmem' (Decimal.isDigit_decimal hc))

theorem kept_date {d : UInt32} {y m day : Nat} (hf : f.ftype = 68) (hw : f.width = 8) (hd : nToMdy d.toNat = some (m, day, y)) (h100 : 100 ≤ y)
    (h9999 : y ≤ 9999) (hback : dateToNumber s.epoch day m y = d.toNat) :
    Kept s f (.date (some d)) (Decimal.padZero 4 y ++ (Decimal.padZero 2 m ++ Decimal.padZero 2 day)) := by
  obtain ⟨hm1, hm12, hday⟩ := nToMdy_bounds hd (by omega)
  have hy : (Decimal.padZero 4 y).length = 4 := Decimal.length_padZero_eq (by omega) (by omega)
  have hm : (Decimal.padZero 2 m).length = 2 := Decimal.length_padZero_eq (by omega) (by omega)
  have hdd : (Decimal.padZero 2 day).length = 2 := Decimal.length_padZero_eq (by omega) (by omega)
  have hlen : (Decimal.padZero 4 y ++ (Decimal.padZero 2 m ++ Decimal.padZero 2 day)).length = 8 := by
    rw [List.length_append, List.length_append, hy, hm, hdd]
  have hbytes : (Decimal.padZero 4 y ++ (Decimal.padZero 2 m ++ Decimal.padZero 2 day)) ++
      blanks (f.width - (Decimal.padZero 4 y ++ (Decimal.padZero 2 m ++ Decimal.padZero 2 day)).length) =
      Decimal.padZero 4 y ++ (Decimal.padZero 2 m ++ Decimal.padZero 2 day) := by
    rw [hlen, hw]
    exact List.append_nil _
  have hdigit : ∃ c, c ∈ Decimal.padZero 4 y ++ (Decimal.padZero 2 m ++ Decimal.padZero 2 day) ∧ Decimal.isDigit c = true := by
    obtain ⟨c, hc⟩ := List.exists_mem_of_length_pos (by rw [hy]; decide : 0 < (Decimal.padZero 4 y).length)
    exact ⟨c, List.mem_append_left _ hc, Decimal.isDigit_padZero hc⟩
  obtain ⟨c, hc, hc'⟩ := hdigit
  have hd0 : d ≠ 0 := by
    rintro rfl
    have h0 : nToMdy (0 : UInt32).toNat = some (0, 0, 0) := by
      unfold nToMdy
      exact if_pos (Or.inr (by decide))
    cases h0.symm.trans hd
    omega
  have hslices : dateOf s.epoch (Decimal.padZero 4 y ++ (Decimal.padZero 2 m ++ Decimal.padZero 2 day)) = .ok d := by
    have hrest : (Decimal.padZero 4 y ++ (Decimal.padZero 2 m ++ Decimal.padZero 2 day)).drop 6 = Decimal.padZero 2 day := by
      rw [show 6 = 4 + 2 from rfl, ← List.drop_drop, List.drop_left' hy, List.drop_left' hm]
    unfold dateOf
    dsimp only
    rw [List.take_left' hy, List.drop_left' hy, List.take_left' hm, hrest, List.take_of_length_le hdd.le, atoi_padZero, atoi_padZero, atoi_padZero,
      if_pos ⟨by omega, by omega, by omega, by omega⟩, Int.toNat_natCast, Int.toNat_natCast, Int.toNat_natCast, hback, UInt32.ofNat_toNat]
  refine ⟨?_, hlen.trans_le hw.ge, ⟨.date (some d), ?_, rfl⟩, fun h => ?_⟩
  · have htext : dbDate d.toNat = some (Decimal.padZero 4 y ++ (Decimal.padZero 2 m ++ Decimal.padZero 2 day)) := by
      unfold dbDate
      rw [hd]
      rfl
    unfold fieldText
    dsimp only
    rw [if_neg (not_not.mpr hf), if_neg hd0, htext]
    exact if_pos hlen.le
  · unfold fieldValue
    rw [hf, if_neg (by decide), if_neg (by decide), if_neg (by decide), if_neg (by decide), if_pos rfl, hbytes, List.take_of_length_le hlen.le,
      if_neg (ne_blanks hc hc'), hslices]
  · rw [hbytes] at h
    exact absurd h (ne_blanks hc hc')

/-- Every value of the type of a field has its text. -/
theorem exists_kept (hs : s.dfpiOn = true) (hv : isValidField f.toField = true) (hd : 0 ≤ f.dlength) (hb : Belongs s.epoch f v) (hfit : TextFits f v) :
    ∃ text, Kept s f v text := by
  unfold isValidField at hv
  cases hb with
  | charctr str hf _ => exact ⟨_, kept_charctr str hf⟩
  | logic b hf =>
    rw [hf, if_neg (by decide), if_neg (by decide), if_pos rfl, decide_eq_true_eq] at hv
    refine ⟨_, kept_logic b hf ?_⟩
    unfold OpenField.width
    omega
  | number x hf hx =>
    rw [hf, if_neg (by decide), if_pos rfl, decide_eq_true_eq] at hv
    refine kept_number hs hf hx ?_ ?_ hd hv.2.2 hfit
    · unfold OpenField.width
      omega
    · unfold OpenField.width
      omega
  | date d y m day hf hmdy h100 h9999 hback =>
    rw [hf, if_neg (by decide), if_neg (by decide), if_neg (by decide), if_pos rfl, decide_eq_true_eq] at hv
    refine ⟨_, kept_date hf ?_ hmdy h100 h9999 hback⟩
    have : DATELEN = 8 := rfl
    unfold OpenField.width
    omega

end Text

/-! ## The round trip -/

section Round

variable {s : Setup} {locked : Bool} {fdlist : List OpenField} {name : Str} {f : OpenField} {n : Nat} {v : HbVal} {t t₁ t' : Tbl σ}

/-- A value that is stored is a text that is stored in the record. -/
theorem dbstore_eq (h : Ready s locked fdlist name f n v t) {text : List UInt8} (htext : fieldText s f v = .ok text)
    (hread : getDbRec locked t = .ok t₁) (hs : saved t₁ = .ok t') :
    dbstore s locked fdlist name v t = .ok { t' with buf := { t'.buf with data := (stored f n text).put t'.buf.data } } ∧
      Db3w.dbstore (stored f n text) t₁ = .ok { t' with buf := { t'.buf with data := (stored f n text).put t'.buf.data } } := by
  have hetof : ¬t₁.etof = true := by
    rw [getDbRec_etof hread, h.current]
    exact Bool.false_ne_true
  constructor
  · have hrun : (getDbRec locked t >>= saved) = .ok t' := by
      rw [hread]
      exact hs
    unfold dbstore
    rw [if_neg (by rw [h.current]; exact Bool.false_ne_true), h.found]
    dsimp only
    rw [if_neg h.modifiable, hrun, htext]
  · unfold Db3w.dbstore
    unfold saved at hs
    rw [if_neg hetof, hs]

theorem dbstore_error (h : Ready s locked fdlist name f n v t) {e : StoreErr} (he : fieldText s f v = .error e) :
    dbstore s locked fdlist name v t = .error e := by
  obtain ⟨t₁, t', hread, hs⟩ := h.saved
  have hrun : (getDbRec locked t >>= saved) = .ok t' := by
    rw [hread]
    exact hs
  unfold dbstore
  rw [if_neg (by rw [h.current]; exact Bool.false_ne_true), h.found]
  dsimp only
  rw [if_neg h.modifiable, hrun, he]

/-- What is stored in a field of the current record is read back, unless it is taken for NULL, or its text fills the buffer. -/
theorem roundTrip (h : Ready s locked fdlist name f n v t) (hnull : ¬TakenForNull s f v) (hfit : TextFits f v) :
    RoundTrip s locked fdlist name v t := by
  have hmem := findfld_mem h.found
  obtain ⟨hf, hn, htotal⟩ := layout_bounds hmem
  dsimp only at hf hn htotal
  obtain ⟨hvalid, hdeci⟩ := h.valid f hf
  obtain ⟨text, hk⟩ := exists_kept h.dfpi hvalid hdeci h.belongs hfit
  obtain ⟨w, hw, hread⟩ := hk.read
  obtain ⟨t₁, t', hrec, hs⟩ := h.saved
  obtain ⟨hdata, hetof⟩ := saved_spec hs
  rw [getDbRec_etof hrec, h.current] at hetof
  have hlen : (stored f n text).bytes.length = f.width := by
    unfold stored
    rw [List.length_append, length_blanks]
    have := hk.fits
    omega
  have hoff : (stored f n text).offset = n - 1 := rfl
  have hroom : (stored f n text).offset + (stored f n text).bytes.length ≤ t'.buf.data.length := by
    rw [hlen, hoff, hdata, h.size t₁ hrec]
    omega
  refine ⟨f, n, t₁, _, w, h.found, hrec, (dbstore_eq h hk.made hrec hs).1, ?_, hread, fun g hg hne => ?_⟩
  · have hat := put_at (n := n) hroom rfl
    rw [hlen] at hat
    unfold dbretriv
    rw [h.found]
    dsimp only
    have hcur' : (({ t' with buf := { t'.buf with data := (stored f n text).put t'.buf.data } } : Tbl σ).etof) = false := hetof
    rw [if_neg h.readable, hcur', hat, if_neg (fun hb => hnull ⟨hb.2, hk.null hb.1⟩), show (stored f n text).bytes = text ++ blanks (f.width - text.length) from rfl,
      if_neg Bool.false_ne_true, hw]
    rfl
  · have hother : g.2 + g.1.width ≤ n ∨ n + f.width ≤ g.2 := layout_disjoint hmem hg hne
    obtain ⟨-, hn', -⟩ := layout_bounds hg
    have hout : g.2 - 1 + g.1.width ≤ (stored f n text).offset ∨ (stored f n text).offset + (stored f n text).bytes.length ≤ g.2 - 1 := by
      rw [hlen, hoff]
      omega
    rw [put_other hroom hout]
    unfold bytesAt
    rw [hdata]

/-- The options, with the buffers empty. -/
def plainSetup (nullOn : Bool) : Setup := ⟨nullOn, true, 1950, fun _ _ _ => [], fun _ => none, fun _ => 0, 0⟩

/-- A table with one record of one field, which is blank. -/
def blankTable (width : Nat) : Tbl Unit :=
  { byprec := width + 1, reccnt := 1, disk := fun _ => ⟨VAL_MKR, blanks width⟩, buf := ⟨VAL_MKR, blanks width⟩, crntrec := 1, eof := false, tof := false,
    mode := .none, rbkRecno := 0, rbkBuf := ⟨VAL_MKR, blanks width⟩, log := none, indexActive := false, ndx := () }

theorem blankTable_read {width : Nat} (hw : width < 255) : getDbRec false (blankTable width) = .ok (blankTable width) := by
  have hrec : (blankTable width).readable := by
    have hbuf : Fio.IOBUFSIZE = 16384 := rfl
    show (width + 1) % Fio.IOBUFSIZE ≠ 0
    rw [hbuf, Nat.mod_eq_of_lt (by omega)]
    omega
  exact if_pos hrec

/-- The field `A`. -/
def fieldA (ftype : UInt8) (width : Nat) : OpenField := { name := [65], ftype, tlength := width, dlength := 0, x0 := 3 }

theorem ready_blankTable (nullOn : Bool) {ftype : UInt8} {width : Nat} {v : HbVal} (hw : width < 255)
    (hv : isValidField (fieldA ftype width).toField = true) (hb : Belongs 1950 (fieldA ftype width) v) :
    Ready (plainSetup nullOn) false [fieldA ftype width] ['A'] (fieldA ftype width) 1 v (blankTable width) where
  current := rfl
  valid g hg := by
    rw [List.mem_singleton.mp hg]
    exact ⟨hv, le_rfl⟩
  size t₁ h := by
    rw [blankTable_read hw] at h
    cases h
    exact (length_blanks width).trans (Nat.add_zero _).symm
  found := rfl
  readable := show 3 &&& HBREAD ≠ 0 by decide
  modifiable := show 3 &&& HBMODIFY ≠ 0 by decide
  saved := ⟨_, _, blankTable_read hw, rfl⟩
  dfpi := rfl
  belongs := hb

/-- The text `X` in a field of two characters. -/
theorem roundTrip_text : RoundTrip (plainSetup false) false [fieldA 67 2] ['A'] (.charctr [88]) (blankTable 2) :=
  roundTrip (ready_blankTable false (by decide) rfl (.charctr [88] rfl (by decide))) (fun h => Bool.false_ne_true h.1) fun _ h => nomatch h

/-- Without decimals the text takes the whole width. -/
theorem whole_text (fmt : Nat → Nat → Float → List UInt8) (x : Fixed) : ∃ text, num2str fmt x.num 20 0 = some text ∧ 20 ≤ text.length := by
  refine ⟨nodeci fmt x.num 20 20, rfl, ?_⟩
  rw [x.nodeci_eq]
  split
  · exact List.length_replicate.ge
  · rw [length_padLeft]
    exact le_max_left _ _

theorem exact_zero {len : Nat} (h : 1 ≤ len) : Exact ⟨0, 0, Nat.zero_le _⟩ len 0 := by
  have hround : (⟨0, 0, Nat.zero_le _⟩ : Fixed).rounded 0 = 0 := by
    rw [Fixed.rounded_eq_nearest]
    rfl
  constructor
  · unfold Fixed.shownVal Fixed.val
    rw [hround]
    simp [applySign]
  · unfold Fixed.shown
    rw [hround]
    exact h

/-- A blank is read as NULL, and a number of twenty characters has its NUL behind the end of `temp`. -/
theorem roundTrip_fails :
    (Ready (plainSetup true) false [fieldA 67 2] ['A'] (fieldA 67 2) 1 (.charctr [32]) (blankTable 2) ∧
      ¬RoundTrip (plainSetup true) false [fieldA 67 2] ['A'] (.charctr [32]) (blankTable 2)) ∧
    (Ready (plainSetup true) false [fieldA 78 20] ['A'] (fieldA 78 20) 1 (.number (.fixed 0 0)) (blankTable 20) ∧
      ¬RoundTrip (plainSetup true) false [fieldA 78 20] ['A'] (.number (.fixed 0 0)) (blankTable 20)) := by
  have hready : Ready (plainSetup true) false [fieldA 78 20] ['A'] (fieldA 78 20) 1 (.number (.fixed 0 0)) (blankTable 20) :=
    ready_blankTable true (by decide) rfl (.number ⟨0, 0, _⟩ rfl (exact_zero (by decide)))
  refine ⟨⟨ready_blankTable true (by decide) rfl (.charctr [32] rfl (by decide)), ?_⟩, hready, ?_⟩
  · rintro ⟨f, n, t₁, t', w, hfound, -, hstore, hread, has, -⟩
    cases hfound
    cases hstore
    cases hread
    cases has
  · rintro ⟨f, n, t₁, t', w, -, -, hstore, -⟩
    obtain ⟨text, htext, hlen⟩ := whole_text (fun _ _ _ => []) ⟨0, 0, Nat.zero_le _⟩
    have hover : fieldText (plainSetup true) (fieldA 78 20) (.number (.fixed 0 0)) = .error .overrun := by
      unfold fieldText
      dsimp only
      rw [show num2str (plainSetup true).sprintf (.fixed 0 0) (fieldA 78 20).tlength (fieldA 78 20).dlength.toNat = some text from htext]
      exact if_neg fun h => absurd (lt_of_le_of_lt hlen h.1) (by decide)
    cases (dbstore_error hready hover).symm.trans hstore

end Round

end Db3w.Fields
