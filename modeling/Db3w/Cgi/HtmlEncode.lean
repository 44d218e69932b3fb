/-
HTML text (w3util.c). One loop writes the code of each character as long as there is room for it and a
NUL. A second one goes through what has been written, word by word, and makes links of mail addresses and
of http and ftp paths; it copies each word, and the text behind it, to buffers of its own. As every mark
of punctuation has become a reference by then, it finds no address and no path. From a word that ends the
text it goes on behind the NUL.
-/
import Db3w.Lib.Bytes
import Db3w.Lib.CharRef

namespace Db3w.Cgi

open Bytes (cstr)

def MAXLINELEN : Nat := 4096

def isspace (c : UInt8) : Bool := c = 32 || (9 ≤ c && c ≤ 13)
def isprint (c : UInt8) : Bool := 32 ≤ c && c ≤ 126
def isalnum (c : UInt8) : Bool := (48 ≤ c && c ≤ 57) || (65 ≤ c && c ≤ 90) || (97 ≤ c && c ≤ 122)

/-- `isbreakchar`. -/
def isbreakchar (c : UInt8) : Bool := c = 0 || c = 32 || c = 44 || c = 33 || c = 63 || c = 59 || c = 60 || c = 62

/-! ## The first loop -/

/-- The bytes a character takes in the text, unless it is left out. A new line that is no tag takes its NUL
as well. -/
def htmlCode (nl2br : Bool) (c : UInt8) : Option (List UInt8) :=
  if c = 10 then some (if nl2br then [60, 66, 82, 62] else [10, 0])
  else if c = 9 then some [c]
  else if isspace c then some [32]
  else if !isprint c then none
  else if isalnum c then some [c]
  else if c = 38 then some [38, 97, 109, 112, 59]
  else if c = 60 then some [38, 108, 116, 59]
  else if c = 62 then some [38, 103, 116, 59]
  else if c = 34 then some [38, 113, 117, 111, 116, 59]
  else if c = 39 then some [38, 97, 112, 111, 115, 59]
  else some (38 :: 35 :: (Decimal.decimal c.toNat ++ [59]))

/-- The first loop of `html_encode`: what is written of the source into `destlen` bytes. -/
def encodeLoop (nl2br : Bool) : List UInt8 → Nat → List UInt8
  | [], _ => []
  | c :: cs, destlen =>
    if destlen ≤ 1 then []
    else
      match htmlCode nl2br c with
      | none => encodeLoop nl2br cs destlen
      | some code => if destlen ≤ code.length then [] else code ++ encodeLoop nl2br cs (destlen - code.length)

/-! ## The second loop -/

/-- The first place from `tp` on where a character of a kind stands, if it has been written. -/
def scan (p : UInt8 → Bool) (mem : List UInt8) (tp : Nat) : Option Nat := ((mem.drop tp).findIdx? p).map (tp + ·)

/-- `destlen2` is an `int`, and is compared with a `size_t`. -/
def roomFor (destlen2 : Int) (n : Nat) : Bool := (n : Int) < destlen2 % 2 ^ 64

/-- The link that a word becomes; nothing when it looks in front of the word. -/
def link (destlen2 : Int) (token : List UInt8) : Option (Option (List UInt8)) :=
  if 64 ∈ token then
    -- a mail address
    if token.head? ≠ some 64 ∧ 46 ∈ token.dropWhile (· ≠ 64) ∧ roomFor destlen2 (2 * token.length + 22) then
      some (some ("<A HREF=\"mailto:".toUTF8.toList ++ (token ++ ("\">".toUTF8.toList ++ (token ++ "</A>".toUTF8.toList)))))
    else some none
  else
    match token.findIdx? (· = 47) with
    | none => some none
    | some 0 => none
    | some (i + 1) =>
      if token.getD i 0 = 58 ∧ token.getD (i + 2) 0 = 47 ∧ (token.take 4 = "http".toUTF8.toList ∨ token.take 3 = "ftp".toUTF8.toList) ∧
          roomFor destlen2 (2 * token.length + 15) then
        some (some ("<A HREF=\"".toUTF8.toList ++ (token ++ ("\">".toUTF8.toList ++ (token ++ "</A>".toUTF8.toList)))))
      else some none

/-- The second loop of `html_encode` at `tp1`, where `mem` is what has been written: what is written then,
unless it reads what has not been written or writes past its own buffers. -/
def markup (destlen : Nat) : Nat → List UInt8 → Nat → Option (List UInt8)
  | 0, _, _ => none
  | fuel + 1, mem, tp1 =>
    match mem[tp1]? with
    | none => none
    | some c =>
      if c = 0 then some mem
      else do
        let tp1 ← scan (· ≠ 32) mem tp1
        if mem.getD tp1 0 = 0 then some mem
        else
          let quoted := mem.getD tp1 0 = 34
          let tp1 := if quoted then tp1 + 1 else tp1
          let tp2 ← scan (fun c => if quoted then c = 0 || c = 34 else isbreakchar c) mem tp1
          let token := (mem.drop tp1).take (tp2 - tp1)
          let tail ← (scan (· = 0) mem tp2).map fun tp3 => (mem.drop tp2).take (tp3 - tp2)
          if token.length ≥ MAXLINELEN ∨ tail.length ≥ MAXLINELEN then none
          else
            match ← link (destlen - tp1) token with
            | none => markup destlen fuel mem (tp2 + 1)
            | some s => markup destlen fuel (Bytes.writeAt tp1 (s ++ (tail ++ [0])) mem) (tp1 + s.length + 1)

/-- `html_encode`: the bytes of the destination that it has written. -/
def htmlEncode (src : List UInt8) (destlen : Nat) (nl2br : Bool) : Option (List UInt8) :=
  let mem := encodeLoop nl2br src destlen ++ [0]
  markup destlen (mem.length + 1) mem 0

/-! ## What the text is to say -/

/-- A character as it comes back: a tab and a new line as they are, other white space as a blank. -/
def kept (c : UInt8) : Option UInt8 :=
  if c = 10 ∨ c = 9 then some c else if isspace c then some 32 else if isprint c then some c else none

/-- All white space as blanks, but a new line that is a tag. -/
def blanked (nl2br : Bool) (c : UInt8) : Option UInt8 :=
  if nl2br = true ∧ c = 10 then some c else if isspace c then some 32 else if isprint c then some c else none

/-- A text in a buffer: it ends with a NUL, and says what the source does, up to the first character whose
code has no room. -/
structure EncodeRight (plain : UInt8 → Option UInt8) (src : List UInt8) (destlen : Nat) (nl2br : Bool) (mem : List UInt8) : Prop where
  inside : mem.length ≤ destlen
  ended : 0 ∈ mem
  meaning : ∃ n ≤ src.length, CharRef.decode nl2br (cstr mem) = some ((src.take n).filterMap plain) ∧
    ∀ c, src[n]? = some c → ∃ code, htmlCode nl2br c = some code ∧ destlen ≤ (cstr mem).length + code.length

/-- The second loop stays in a text: it is empty or ends between words, and the first word and what is
behind it fit the buffers. -/
structure Settled (text : List UInt8) : Prop where
  ends : ∀ c, text.getLast? = some c → isbreakchar c = true
  word : ((text.dropWhile (· = 32)).takeWhile (!isbreakchar ·)).length < MAXLINELEN
  tail : ((text.dropWhile (· = 32)).dropWhile (!isbreakchar ·)).length < MAXLINELEN

/-! ## Codes -/

section Code

variable {nl2br : Bool} {c : UInt8} {code : List UInt8} {src : List UInt8} {destlen : Nat}

/-- The second loop sees no NUL, no quote, no at sign and no slash. -/
def Harmless (b : UInt8) : Prop := b ≠ 0 ∧ b ≠ 34 ∧ b ≠ 47 ∧ b ≠ 64

instance (b : UInt8) : Decidable (Harmless b) := inferInstanceAs (Decidable (_ ∧ _))

/-- The three kinds of codes, with the character that is kept. -/
inductive Code (nl2br : Bool) : UInt8 → List UInt8 → Prop where
  | newline : Code nl2br 10 (if nl2br then [60, 66, 82, 62] else [10, 0])
  | plain (b : UInt8) (hb : b = 9 ∨ b = 32 ∨ isalnum b = true) : Code nl2br b [b]
  | ref (b : UInt8) (name : List UInt8) (hr : CharRef.refValue name = some b) (hend : 59 ∉ name) (hname : ∀ d ∈ name, Harmless d) :
    Code nl2br b (38 :: (name ++ [59]))

theorem harmless_of_isDigit (h : Decimal.isDigit c = true) : Harmless c := by
  refine ⟨?_, ?_, ?_, ?_⟩ <;>
  · rintro rfl
    exact absurd h (by decide)

/-- The number of a character as a reference. -/
theorem code_number (nl2br : Bool) (c : UInt8) : Code nl2br c (38 :: 35 :: (Decimal.decimal c.toNat ++ [59])) := by
  refine .ref c (35 :: Decimal.decimal c.toNat) (CharRef.refValue_number c) (CharRef.number_end c) ?_
  intro d hd
  rcases List.mem_cons.mp hd with rfl | hd
  · decide
  · exact harmless_of_isDigit (Decimal.isDigit_decimal hd)

theorem kept_newline_tab (h : c = 10 ∨ c = 9) : kept c = some c := if_pos h

theorem kept_other (h : ¬(c = 10 ∨ c = 9)) : kept c = if isspace c then some 32 else if isprint c then some c else none := if_neg h

/-- What `htmlCode` does, one kind of character after the other. -/
theorem htmlCode_cases (nl2br : Bool) (c : UInt8) :
    (htmlCode nl2br c = none ∧ kept c = none) ∨
      ∃ b code, htmlCode nl2br c = some code ∧ kept c = some b ∧ Code nl2br b code ∧ (b = 10 → c = 10) := by
  unfold htmlCode
  by_cases hc : c = 10
  · rw [if_pos hc, kept_newline_tab (.inl hc), hc]
    exact .inr ⟨_, _, rfl, rfl, .newline, id⟩
  rw [if_neg hc]
  by_cases htab : c = 9
  · rw [if_pos htab, kept_newline_tab (.inr htab), htab]
    exact .inr ⟨_, _, rfl, rfl, .plain 9 (.inl rfl), fun h => by cases h⟩
  rw [if_neg htab, kept_other (not_or.mpr ⟨hc, htab⟩)]
  by_cases hspace : isspace c = true
  · rw [if_pos hspace, if_pos hspace]
    exact .inr ⟨_, _, rfl, rfl, .plain 32 (.inr (.inl rfl)), fun h => by cases h⟩
  rw [if_neg hspace, if_neg hspace]
  by_cases hprint : isprint c = true
  swap
  · rw [if_pos (by simpa using hprint), if_neg hprint]
    exact .inl ⟨rfl, rfl⟩
  rw [if_neg (by simpa using hprint), if_pos hprint]
  right
  by_cases halnum : isalnum c = true
  · rw [if_pos halnum]
    exact ⟨_, _, rfl, rfl, .plain c (.inr (.inr halnum)), id⟩
  rw [if_neg halnum]
  by_cases hamp : c = 38
  · rw [if_pos hamp, hamp]
    exact ⟨_, _, rfl, rfl, .ref 38 [97, 109, 112] rfl (by decide) (by simp [Harmless]), fun h => by cases h⟩
  rw [if_neg hamp]
  by_cases hlt : c = 60
  · rw [if_pos hlt, hlt]
    exact ⟨_, _, rfl, rfl, .ref 60 [108, 116] rfl (by decide) (by simp [Harmless]), fun h => by cases h⟩
  rw [if_neg hlt]
  by_cases hgt : c = 62
  · rw [if_pos hgt, hgt]
    exact ⟨_, _, rfl, rfl, .ref 62 [103, 116] rfl (by decide) (by simp [Harmless]), fun h => by cases h⟩
  rw [if_neg hgt]
  by_cases hquot : c = 34
  · rw [if_pos hquot, hquot]
    exact ⟨_, _, rfl, rfl, .ref 34 [113, 117, 111, 116] rfl (by decide) (by simp [Harmless]), fun h => by cases h⟩
  rw [if_neg hquot]
  by_cases hapos : c = 39
  · rw [if_pos hapos, hapos]
    exact ⟨_, _, rfl, rfl, .ref 39 [97, 112, 111, 115] rfl (by decide) (by simp [Harmless]), fun h => by cases h⟩
  rw [if_neg hapos]
  exact ⟨_, _, rfl, rfl, code_number nl2br c, id⟩

variable {b : UInt8}

theorem Code.length_pos (h : Code nl2br b code) : 1 ≤ code.length := by
  cases h with
  | newline => cases nl2br <;> decide
  | plain => exact le_rfl
  | ref => exact Nat.succ_pos _

theorem Code.harmless (h : Code nl2br b code) (hnl : b = 10 → nl2br = true) : ∀ d ∈ code, Harmless d := by
  cases h with
  | newline =>
    rw [hnl rfl]
    simp [Harmless]
  | plain _ hb =>
    have hharm : Harmless b := by
      refine ⟨?_, ?_, ?_, ?_⟩ <;>
      · rintro rfl
        exact absurd hb (by decide)
    simpa using hharm
  | ref _ name _ _ hname =>
    intro d hd
    rcases List.mem_cons.mp hd with rfl | hd
    · decide
    rcases List.mem_append.mp hd with hd | hd
    · exact hname d hd
    · rw [List.mem_singleton.mp hd]
      decide

/-- A code is read as the character that is kept. -/
theorem Code.decode (h : Code nl2br b code) (hnl : b = 10 → nl2br = true) (rest : List UInt8) :
    CharRef.decode nl2br (code ++ rest) = (CharRef.decode nl2br rest).map (b :: ·) := by
  cases h with
  | newline =>
    rw [hnl rfl]
    exact CharRef.decode_break
  | plain _ hb =>
    refine CharRef.decode_plain ?_
    by_contra hmark
    simp only [CharRef.isMarkup, Bool.not_eq_false, Bool.or_eq_true, decide_eq_true_eq] at hmark
    rcases hmark with (((rfl | rfl) | rfl) | rfl) | rfl <;> exact absurd hb (by decide)
  | ref _ name hr hend _ =>
    rw [List.cons_append, List.append_assoc, List.singleton_append]
    exact CharRef.decode_ref hend hr

/-! ## The text -/

theorem encodeLoop_full (h : destlen ≤ 1) (src : List UInt8) : encodeLoop nl2br src destlen = [] := by
  cases src with
  | nil => rfl
  | cons c cs => rw [encodeLoop, if_pos h]

theorem encodeLoop_none (h : htmlCode nl2br c = none) (cs : List UInt8) :
    encodeLoop nl2br (c :: cs) destlen = encodeLoop nl2br cs destlen := by
  by_cases hd : destlen ≤ 1
  · rw [encodeLoop_full hd, encodeLoop_full hd]
  · rw [encodeLoop, if_neg hd, h]

theorem encodeLoop_some (h : htmlCode nl2br c = some code) (cs : List UInt8) :
    encodeLoop nl2br (c :: cs) destlen = if destlen ≤ code.length then [] else code ++ encodeLoop nl2br cs (destlen - code.length) := by
  have hpos : 1 ≤ code.length := by
    rcases htmlCode_cases nl2br c with ⟨hn, -⟩ | ⟨b, code', hs, -, hcode, -⟩
    · rw [h] at hn
      cases hn
    · rw [h] at hs
      cases hs
      exact hcode.length_pos
  by_cases hd : destlen ≤ 1
  · rw [encodeLoop_full hd, if_pos (hd.trans hpos)]
  · rw [encodeLoop, if_neg hd, h]

/-- The codes of a front part of the source are written: they have room, and the next one has not. -/
theorem encodeLoop_spec (nl2br : Bool) (src : List UInt8) (hd : 1 ≤ destlen) :
    (encodeLoop nl2br src destlen).length < destlen ∧ ∃ n ≤ src.length,
      encodeLoop nl2br src destlen = (src.take n).flatMap (fun c => (htmlCode nl2br c).getD []) ∧
      ∀ c, src[n]? = some c → ∃ code, htmlCode nl2br c = some code ∧ destlen ≤ (encodeLoop nl2br src destlen).length + code.length := by
  induction src generalizing destlen with
  | nil => exact ⟨hd, 0, le_rfl, rfl, fun c hc => by cases hc⟩
  | cons c cs ih =>
    cases hcode : htmlCode nl2br c with
    | none =>
      obtain ⟨hlen, n, hn, htext, hcut⟩ := ih hd
      rw [encodeLoop_none hcode]
      refine ⟨hlen, n + 1, Nat.succ_le_succ hn, ?_, hcut⟩
      rw [List.take_succ_cons, List.flatMap_cons, hcode, htext]
      rfl
    | some code =>
      rw [encodeLoop_some hcode]
      split_ifs with hfull
      · refine ⟨hd, 0, Nat.zero_le _, rfl, ?_⟩
        rintro _ ⟨⟩
        exact ⟨code, hcode, by simpa using hfull⟩
      · obtain ⟨hlen, n, hn, htext, hcut⟩ := @ih (destlen - code.length) (by omega)
        refine ⟨?_, n + 1, Nat.succ_le_succ hn, ?_, ?_⟩
        · rw [List.length_append]
          omega
        · rw [List.take_succ_cons, List.flatMap_cons, hcode, ← htext]
          rfl
        · intro b hb
          obtain ⟨next, hnext, hle⟩ := hcut b hb
          refine ⟨next, hnext, ?_⟩
          rw [List.length_append]
          omega

/-- The codes say what is kept of the source. -/
theorem decode_codes (hnl : nl2br = true ∨ 10 ∉ src) :
    CharRef.decode nl2br (src.flatMap fun c => (htmlCode nl2br c).getD []) = some (src.filterMap kept) := by
  induction src with
  | nil => rfl
  | cons c cs ih =>
    have hcs : nl2br = true ∨ 10 ∉ cs := hnl.imp_right fun h hmem => h (List.mem_cons_of_mem _ hmem)
    have hc : c = 10 → nl2br = true := by
      rintro rfl
      exact hnl.resolve_right (not_not.mpr List.mem_cons_self)
    rw [List.flatMap_cons]
    rcases htmlCode_cases nl2br c with ⟨hnone, hkept⟩ | ⟨b, code, hsome, hkept, hcode, hb⟩
    · rw [hnone, Option.getD_none, List.nil_append, ih hcs, List.filterMap_cons_none hkept]
    · rw [hsome, Option.getD_some, hcode.decode (fun h => hc (hb h)), ih hcs, List.filterMap_cons_some hkept]
      rfl

theorem codes_harmless (hnl : nl2br = true ∨ 10 ∉ src) : ∀ b ∈ src.flatMap fun c => (htmlCode nl2br c).getD [], Harmless b := by
  intro b hb
  obtain ⟨c, hc, hb⟩ := List.mem_flatMap.mp hb
  rcases htmlCode_cases nl2br c with ⟨hnone, -⟩ | ⟨d, code, hsome, -, hcode, hd⟩
  · rw [hnone] at hb
    cases hb
  · rw [hsome] at hb
    refine hcode.harmless ?_ b hb
    intro h
    obtain rfl := hd h
    exact hnl.resolve_right (not_not.mpr hc)

end Code

/-! ## The words -/

section Words

variable {p : UInt8 → Bool} {c : UInt8} {front s rest t mem token : List UInt8} {fuel destlen tp tp1 tp2 tp3 : Nat}

theorem scan_eq (hs : ∀ b ∈ s, p b = false) (hc : p c = true) (front rest : List UInt8) :
    scan p (front ++ (s ++ c :: rest)) front.length = some (front.length + s.length) := by
  have hfind : (s ++ c :: rest).findIdx? p = some s.length := by
    induction s with
    | nil => rw [List.nil_append, List.findIdx?_cons, if_pos hc]; rfl
    | cons b s ih =>
      rw [List.cons_append, List.findIdx?_cons, if_neg (by rw [hs b List.mem_cons_self]; exact Bool.false_ne_true),
        ih fun d hd => hs d (List.mem_cons_of_mem _ hd)]
      rfl
  unfold scan
  rw [List.drop_left' rfl, hfind]
  rfl

/-- A word that is harmless is no link. -/
theorem link_harmless (h : ∀ b ∈ token, Harmless b) (destlen2 : Int) : link destlen2 token = some none := by
  have hat : 64 ∉ token := fun hmem => (h 64 hmem).2.2.2 rfl
  have hslash : token.findIdx? (· = 47) = none := by
    rw [List.findIdx?_eq_none_iff]
    intro b hb
    simpa using (h b hb).2.2.1
  unfold link
  rw [if_neg hat, hslash]

theorem markup_end (h : mem[tp]? = some 0) : markup destlen (fuel + 1) mem tp = some mem := by
  rw [markup, h]
  rfl

theorem markup_outside (h : mem[tp]? = none) : markup destlen fuel mem tp = none := by
  cases fuel with
  | zero => rfl
  | succ fuel => rw [markup, h]

/-- Blanks at the end of the text are passed. -/
theorem markup_blanks (h : mem[tp]? = some c) (hc : c ≠ 0) (h1 : scan (· ≠ 32) mem tp = some tp1) (hend : mem.getD tp1 0 = 0) :
    markup destlen (fuel + 1) mem tp = some mem := by
  rw [markup, h]
  dsimp only
  rw [if_neg hc, h1, Option.bind_eq_bind, Option.bind_some, if_pos hend]

/-- A word without a link is passed, if there is room to copy it and what is behind it. -/
theorem markup_word (h : mem[tp]? = some c) (hc : c ≠ 0) (h1 : scan (· ≠ 32) mem tp = some tp1) (hend : mem.getD tp1 0 ≠ 0)
    (hquote : mem.getD tp1 0 ≠ 34) (h2 : scan isbreakchar mem tp1 = some tp2) (h3 : scan (· = 0) mem tp2 = some tp3)
    (hlink : link (destlen - tp1) ((mem.drop tp1).take (tp2 - tp1)) = some none) :
    markup destlen (fuel + 1) mem tp = if ((mem.drop tp1).take (tp2 - tp1)).length ≥ MAXLINELEN ∨ ((mem.drop tp2).take (tp3 - tp2)).length ≥ MAXLINELEN then none
      else markup destlen fuel mem (tp2 + 1) := by
  rw [markup, h]
  dsimp only
  rw [if_neg hc, h1, Option.bind_eq_bind, Option.bind_some, if_neg hend]
  simp only [hquote, if_false]
  rw [h2, Option.bind_some, h3, Option.map_some]
  simp only [Option.bind_eq_bind, Option.bind_some, hlink]

/-- One turn of the second loop in a harmless text: blanks, a word, and what is behind it. -/
theorem markup_step {blanks token tail : List UInt8} (front : List UInt8) (hblanks : ∀ b ∈ blanks, b = 32) (htoken : ∀ b ∈ token, isbreakchar b = false)
    (htail : ∀ b, tail.head? = some b → isbreakchar b = true) (hsafe : ∀ b ∈ blanks ++ (token ++ tail), Harmless b)
    (hhead : ∃ d, (token ++ tail).head? = some d ∧ d ≠ 32) :
    markup destlen (fuel + 1) (front ++ (blanks ++ (token ++ tail) ++ [0])) front.length =
      if token.length ≥ MAXLINELEN ∨ tail.length ≥ MAXLINELEN then none
      else markup destlen fuel (front ++ (blanks ++ (token ++ tail) ++ [0])) ((front ++ (blanks ++ token)).length + 1) := by
  obtain ⟨d, hd, hd32⟩ := hhead
  obtain ⟨us, hus⟩ := List.head?_eq_some_iff.mp hd
  have hdsafe : Harmless d := hsafe d (List.mem_append_right _ (List.mem_of_mem_head? hd))
  -- the same bytes, cut in front of the word and behind it
  have hcut1 : front ++ (blanks ++ (token ++ tail) ++ [0]) = front ++ (blanks ++ d :: (us ++ [0])) := by
    rw [hus, List.append_assoc, List.cons_append]
  have hcut2 : front ++ (blanks ++ (token ++ tail) ++ [0]) = (front ++ blanks) ++ (token ++ (tail ++ [0])) := by
    simp only [List.append_assoc]
  have hcut3 : front ++ (blanks ++ (token ++ tail) ++ [0]) = (front ++ (blanks ++ token)) ++ (tail ++ 0 :: []) := by
    simp only [List.append_assoc]
  obtain ⟨x, y, hxy, hx⟩ : ∃ x y, tail ++ [0] = x :: y ∧ isbreakchar x = true := by
    cases tail with
    | nil => exact ⟨0, [], rfl, rfl⟩
    | cons b bs => exact ⟨b, bs ++ [0], rfl, htail b rfl⟩
  have hscan1 := scan_eq (p := fun b => decide (b ≠ 32)) (c := d) (by simpa using hblanks) (by simpa using hd32) front (us ++ [0])
  rw [← hcut1, ← List.length_append] at hscan1
  have hscan2 := scan_eq htoken hx (front ++ blanks) y
  rw [← hxy, ← hcut2, ← List.length_append, List.append_assoc front] at hscan2
  have hscan3 := scan_eq (p := fun b => decide (b = 0)) (c := 0) (s := tail)
    (by simpa using fun b hb => (hsafe b (List.mem_append_right _ (List.mem_append_right _ hb))).1) rfl (front ++ (blanks ++ token)) []
  rw [← hcut3] at hscan3
  have hfirst : ∃ c, (front ++ (blanks ++ (token ++ tail) ++ [0]))[front.length]? = some c ∧ c ≠ 0 := by
    rw [hcut1, List.getElem?_append_right le_rfl, Nat.sub_self]
    cases blanks with
    | nil => exact ⟨d, rfl, hdsafe.1⟩
    | cons b bs => exact ⟨b, rfl, (hsafe b List.mem_cons_self).1⟩
  obtain ⟨c, hc, hc0⟩ := hfirst
  have hget : (front ++ (blanks ++ (token ++ tail) ++ [0])).getD (front ++ blanks).length 0 = d := by
    rw [hcut1, ← List.append_assoc, List.getD_eq_getElem?_getD, List.getElem?_append_right le_rfl, Nat.sub_self]
    rfl
  have hword : ((front ++ (blanks ++ (token ++ tail) ++ [0])).drop (front ++ blanks).length).take ((front ++ (blanks ++ token)).length - (front ++ blanks).length) = token := by
    rw [hcut2, List.drop_left' rfl, ← List.append_assoc front, @List.length_append _ (front ++ blanks), Nat.add_sub_cancel_left, List.take_left' rfl]
  have hrest : ((front ++ (blanks ++ (token ++ tail) ++ [0])).drop (front ++ (blanks ++ token)).length).take
      ((front ++ (blanks ++ token)).length + tail.length - (front ++ (blanks ++ token)).length) = tail := by
    rw [hcut3, List.drop_left' rfl, Nat.add_sub_cancel_left, List.take_left' rfl]
  have hlink : link (destlen - (front ++ blanks).length) token = some none :=
    link_harmless (fun b hb => hsafe b (List.mem_append_right _ (List.mem_append_left _ hb))) _
  rw [markup_word hc hc0 hscan1 (by rw [hget]; exact hdsafe.1) (by rw [hget]; exact hdsafe.2.1) hscan2 hscan3 (by rw [hword]; exact hlink), hword, hrest]

/-- Behind a break the text only has to end between words, when there is room for it. -/
theorem settled_rest (l : List UInt8) {b : UInt8} {r : List UInt8} (hb : isbreakchar b = true) (hr : r.length < MAXLINELEN) :
    (∀ x, (l ++ b :: r).getLast? = some x → isbreakchar x = true) ↔ Settled r := by
  have hword := (List.takeWhile_sublist (!isbreakchar ·)).length_le.trans (List.dropWhile_sublist (l := r) (· = 32)).length_le
  have htail := (List.dropWhile_sublist (!isbreakchar ·)).length_le.trans (List.dropWhile_sublist (l := r) (· = 32)).length_le
  rcases List.eq_nil_or_concat r with rfl | ⟨r', x, rfl⟩
  · rw [List.getLast?_append_of_ne_nil _ (List.cons_ne_nil b [])]
    refine iff_of_true ?_ ⟨by simp, hword.trans_lt hr, htail.trans_lt hr⟩
    rintro _ ⟨⟩
    exact hb
  · have hl : (l ++ b :: r'.concat x).getLast? = some x := by
      rw [List.concat_eq_append, ← List.cons_append, ← List.append_assoc, List.getLast?_concat]
    have hl' : (r'.concat x).getLast? = some x := by rw [List.concat_eq_append, List.getLast?_concat]
    constructor
    · intro h
      exact ⟨by rw [hl']; rwa [hl] at h, hword.trans_lt hr, htail.trans_lt hr⟩
    · intro h
      rw [hl]
      exact hl' ▸ h.ends

/-- A list up to the first element of another kind, and from there on. -/
theorem exists_split (p : UInt8 → Bool) (t : List UInt8) :
    ∃ l r, t = l ++ r ∧ (∀ b ∈ l, p b = true) ∧ ∀ d, r.head? = some d → p d = false := by
  refine ⟨t.takeWhile p, t.dropWhile p, List.takeWhile_append_dropWhile.symm, fun b hb => List.mem_takeWhile_imp hb, ?_⟩
  intro d hd
  have h := List.head?_dropWhile_not p t
  rw [hd] at h
  simpa using h

theorem takeWhile_split {p : UInt8 → Bool} {l r : List UInt8} (hl : ∀ b ∈ l, p b = true) (hr : ∀ d, r.head? = some d → p d = false) :
    (l ++ r).takeWhile p = l ∧ (l ++ r).dropWhile p = r := by
  rw [List.takeWhile_append_of_pos hl, List.dropWhile_append_of_pos hl]
  cases r with
  | nil => simp
  | cons d r => simp [hr d rfl]

/-- What a text has to be like whose first word and the rest are known. -/
theorem settled_iff_split {blanks token tail : List UInt8} (hblanks : ∀ b ∈ blanks, (b = 32 : Bool) = true)
    (hhead : ∀ d, (token ++ tail).head? = some d → (d = 32 : Bool) = false) (htoken : ∀ b ∈ token, (!isbreakchar b) = true)
    (htail : ∀ b, tail.head? = some b → (!isbreakchar b) = false) :
    Settled (blanks ++ (token ++ tail)) ↔ (∀ b, (blanks ++ (token ++ tail)).getLast? = some b → isbreakchar b = true) ∧
      token.length < MAXLINELEN ∧ tail.length < MAXLINELEN := by
  obtain ⟨-, hdrop⟩ := takeWhile_split hblanks hhead
  obtain ⟨htake, hrest⟩ := takeWhile_split htoken htail
  constructor
  · rintro ⟨h1, h2, h3⟩
    rw [hdrop, htake] at h2
    rw [hdrop, hrest] at h3
    exact ⟨h1, h2, h3⟩
  · rintro ⟨h1, h2, h3⟩
    exact ⟨h1, by rwa [hdrop, htake], by rwa [hdrop, hrest]⟩

/-- The second loop gets through a harmless text exactly if it stays in it, and leaves it as it is. -/
theorem markup_eq (fuel : Nat) : ∀ front t : List UInt8, (∀ b ∈ t, Harmless b) → t.length < fuel →
    (Settled t → markup destlen fuel (front ++ (t ++ [0])) front.length = some (front ++ (t ++ [0]))) ∧
      (¬Settled t → markup destlen fuel (front ++ (t ++ [0])) front.length = none) := by
  induction fuel with
  | zero =>
    intro front t _ hlt
    exact absurd hlt (Nat.not_lt_zero _)
  | succ fuel ih =>
    intro front t hsafe hlt
    have hmax : 0 < MAXLINELEN := by decide
    obtain ⟨blanks, u, rfl, hblanks, hu⟩ := exists_split (· = 32) t
    obtain ⟨token, tail, rfl, htoken, htail⟩ := exists_split (!isbreakchar ·) u
    have hset := settled_iff_split hblanks hu htoken htail
    cases hhead : (token ++ tail).head? with
    | none =>
      -- there is no other word
      obtain ⟨rfl, rfl⟩ := List.append_eq_nil_iff.mp (List.head?_eq_none_iff.mp hhead)
      simp only [List.append_nil] at hset hsafe ⊢
      have hends : ∀ b, blanks.getLast? = some b → isbreakchar b = true := by
        intro b hb
        obtain rfl : b = 32 := by simpa using hblanks b (List.mem_of_getLast? hb)
        rfl
      refine ⟨fun _ => ?_, fun h => absurd (hset.mpr ⟨hends, hmax, hmax⟩) h⟩
      cases blanks with
      | nil => exact markup_end (by simp)
      | cons b bs =>
        have hscan := scan_eq (p := fun b => decide (b ≠ 32)) (c := 0) (s := b :: bs) (by simpa using hblanks) (by decide) front []
        refine markup_blanks (by simp) (hsafe b List.mem_cons_self).1 hscan ?_
        rw [List.getD_eq_getElem?_getD, List.getElem?_append_right (Nat.le_add_right ..), Nat.add_sub_cancel_left,
          List.getElem?_append_right le_rfl, Nat.sub_self]
        rfl
    | some d =>
      rw [markup_step front (by simpa using hblanks) (by simpa using htoken) (by simpa using htail) hsafe ⟨d, hhead, by simpa using hu d hhead⟩, hset]
      by_cases hbig : token.length ≥ MAXLINELEN ∨ tail.length ≥ MAXLINELEN
      · rw [if_pos hbig]
        exact ⟨fun h => by omega, fun _ => rfl⟩
      have hroom : token.length < MAXLINELEN ∧ tail.length < MAXLINELEN := by omega
      rw [if_neg hbig, and_iff_left hroom]
      cases tail with
      | nil =>
        -- the word ends the text, and the loop goes on behind the NUL
        have hlast : ¬∀ b, (blanks ++ (token ++ [])).getLast? = some b → isbreakchar b = true := by
          intro h
          rw [List.append_nil] at h hhead
          have hne : token ≠ [] := by
            rintro rfl
            cases hhead
          have hb := h _ (by rw [List.getLast?_append_of_ne_nil _ hne, List.getLast?_eq_some_getLast hne])
          have hno := htoken _ (List.getLast_mem hne)
          rw [hb] at hno
          cases hno
        refine ⟨fun h => absurd h hlast, fun _ => markup_outside ?_⟩
        rw [List.getElem?_eq_none_iff]
        simp only [List.length_append, List.length_singleton, List.append_nil]
        omega
      | cons b r =>
        have hcut : blanks ++ (token ++ b :: r) = (blanks ++ token) ++ b :: r := (List.append_assoc ..).symm
        have hmem : front ++ ((blanks ++ token) ++ b :: r ++ [0]) = front ++ (blanks ++ token ++ [b]) ++ (r ++ [0]) := by simp
        have hpos : (front ++ (blanks ++ token)).length + 1 = (front ++ (blanks ++ token ++ [b])).length := by
          simp only [List.length_append, List.length_singleton]
          omega
        rw [hcut] at hsafe hlt ⊢
        rw [settled_rest _ (by simpa using htail b rfl) (by rw [List.length_cons] at hroom; omega), hmem, hpos]
        apply ih
        · exact fun x hx => hsafe x (List.mem_append_right _ (List.mem_cons_of_mem _ hx))
        · rw [List.length_append, List.length_cons] at hlt
          omega

end Words

/-! ## What is left in the buffer -/

section Main

variable {nl2br : Bool} {src : List UInt8} {destlen : Nat}

theorem encodeLoop_harmless (hnl : nl2br = true ∨ 10 ∉ src) (hd : 1 ≤ destlen) : ∀ b ∈ encodeLoop nl2br src destlen, Harmless b := by
  obtain ⟨-, n, -, htext, -⟩ := encodeLoop_spec nl2br src hd
  rw [htext]
  exact codes_harmless (hnl.imp_right fun h hmem => h (List.mem_of_mem_take hmem))

theorem encodeLoop_right (hnl : nl2br = true ∨ 10 ∉ src) (hd : 1 ≤ destlen) :
    EncodeRight kept src destlen nl2br (encodeLoop nl2br src destlen ++ [0]) := by
  obtain ⟨hlen, n, hn, htext, hcut⟩ := encodeLoop_spec nl2br src hd
  have hcstr : cstr (encodeLoop nl2br src destlen ++ [0]) = encodeLoop nl2br src destlen :=
    Bytes.cstr_append (fun h => (encodeLoop_harmless hnl hd 0 h).1 rfl) []
  refine ⟨?_, ?_, n, hn, ?_, ?_⟩
  · rw [List.length_append, List.length_singleton]
    exact hlen
  · exact List.mem_append_right _ (List.mem_singleton_self 0)
  · rw [hcstr, htext]
    exact decode_codes (hnl.imp_right fun h hmem => h (List.mem_of_mem_take hmem))
  · rwa [hcstr]

/-- What `html_encode` writes is the text of the first loop, if the second one stays in it; else it reads what
has not been written or writes past its own buffers. -/
theorem htmlEncode_eq (hnl : nl2br = true ∨ 10 ∉ src) (hd : 1 ≤ destlen) :
    (Settled (encodeLoop nl2br src destlen) → htmlEncode src destlen nl2br = some (encodeLoop nl2br src destlen ++ [0])) ∧
      (¬Settled (encodeLoop nl2br src destlen) → htmlEncode src destlen nl2br = none) := by
  refine markup_eq _ [] _ (encodeLoop_harmless hnl hd) ?_
  rw [List.length_append]
  omega

/-- The text with its NUL fits the buffer. That of a source without new lines, or with tags for them, is right
in it, tabs and new lines being kept; the second loop leaves it so where it stays in it. -/
theorem htmlEncode_right (hd : 1 ≤ destlen) :
    (encodeLoop nl2br src destlen ++ [0]).length ≤ destlen ∧
      (nl2br = true ∨ 10 ∉ src → EncodeRight kept src destlen nl2br (encodeLoop nl2br src destlen ++ [0]) ∧
        (Settled (encodeLoop nl2br src destlen) → htmlEncode src destlen nl2br = some (encodeLoop nl2br src destlen ++ [0]))) := by
  refine ⟨?_, fun hnl => ⟨encodeLoop_right hnl hd, (htmlEncode_eq hnl hd).1⟩⟩
  obtain ⟨hlen, -⟩ := encodeLoop_spec nl2br src hd
  rwa [List.length_append, List.length_singleton]

theorem settled_amp : Settled (encodeLoop false [9, 38] 64) where
  ends c hc := by
    obtain rfl := Option.some.inj ((show (encodeLoop false [9, 38] 64).getLast? = some 59 by decide).symm.trans hc)
    decide
  word := by decide
  tail := by decide

theorem htmlEncode_right_amp : EncodeRight kept [9, 38] 64 false (encodeLoop false [9, 38] 64 ++ [0]) ∧
    htmlEncode [9, 38] 64 false = some (encodeLoop false [9, 38] 64 ++ [0]) := by
  obtain ⟨hright, hsettled⟩ := (@htmlEncode_right false [9, 38] 64 (by decide)).2 (.inr (by decide))
  exact ⟨hright, hsettled settled_amp⟩

/-- A tab stays one, and is no blank. -/
theorem htmlEncode_tab : ¬∃ mem, htmlEncode [9, 38] 64 false = some mem ∧ EncodeRight (blanked false) [9, 38] 64 false mem := by
  rintro ⟨mem, hmem, -, -, n, hn, hmeaning, -⟩
  obtain rfl : [9, 38, 97, 109, 112, 59, 0] = mem := Option.some.inj ((show htmlEncode [9, 38] 64 false = _ by decide).symm.trans hmem)
  have hdec : CharRef.decode false (cstr [9, 38, 97, 109, 112, 59, 0]) = some [9, 38] := by decide
  rw [hdec, Option.some.injEq] at hmeaning
  have h9 : (9 : UInt8) ∈ ([9, 38].take n).filterMap (blanked false) := hmeaning ▸ List.mem_cons_self
  obtain ⟨c, hc, hb⟩ := List.mem_filterMap.mp h9
  have hmem := List.mem_of_mem_take hc
  simp only [List.mem_cons, List.not_mem_nil, or_false] at hmem
  rcases hmem with rfl | rfl <;> exact absurd hb (by decide)

/-- From a word that ends the text the second loop goes on behind the NUL. -/
example : htmlEncode [97] 64 false = none := by decide

end Main

end Db3w.Cgi
