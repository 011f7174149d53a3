/-
  Subject:   WHAT IS WRITTEN IS CUT INTO ITS TOKENS AGAIN. A value of whole numbers within the
             counts has tokens of its own, and the indented text of the value has the same.

  * `Value.tokens`: the tokens of a value, without any text;
  * `Value.Plain`: a value of texts, truth values and counts, with a bound on its brackets;
  * `Token.Scans`: a text and its tokens, however many steps are granted;
  * `scanWord_writeText`, `scanWord_toDigits`: one string, one number;
  * `Value.Plain.scan_pretty`: **the text of a value has the tokens of the value**.
-/
import Mathlib.Tactic.SplitIfs
import DesignSpace.Json.Value

namespace DesignSpace.Json

/-! ## 1. Tokens without text -/

/-- What stands in front of an item or a member: a comma, but not in front of the first one. -/
def Token.lead (first : Bool) : List Token := if first then [] else [comma]

mutual

/-- The tokens of a value. -/
def Value.tokens : Value → List Token
  | .null => [.null]
  | .bool b => [.bool b]
  | .number n => [.number n]
  | .text s => [.text s]
  | .list items => .openArray :: itemTokens items true
  | .object members => .openObject :: memberTokens members true

/-- The tokens of items and of the closing bracket. -/
def itemTokens : List Value → (first : Bool) → List Token
  | [], _ => [.closeArray]
  | v :: vs, first => Token.lead first ++ (v.tokens ++ itemTokens vs false)

/-- The tokens of members and of the closing brace. -/
def memberTokens : List (String × Value) → (first : Bool) → List Token
  | [], _ => [.closeObject]
  | (name, v) :: ms, first =>
    Token.lead first ++ (.text name :: .colon :: (v.tokens ++ memberTokens ms false))

end

/-- **A plain value**: its numbers are counts, and at most `room` brackets stand around a part. -/
inductive Value.Plain : (room : Nat) → Value → Prop where
  | null {room : Nat} : Plain room .null
  | bool {room : Nat} (b : Bool) : Plain room (.bool b)
  | count {room n : Nat} (h : n ≤ Count.limit) : Plain room (.ofNat n)
  | text {room : Nat} (s : String) : Plain room (.text s)
  | list {room : Nat} {items : List Value} (h : ∀ v ∈ items, Plain room v) :
    Plain (room + 1) (.list items)
  | object {room : Nat} {members : List (String × Value)} (h : ∀ m ∈ members, Plain room m.2) :
    Plain (room + 1) (.object members)

theorem Value.Plain.map {α : Type} {room : Nat} {f : α → Value} {as : List α}
    (h : ∀ a ∈ as, (f a).Plain room) : (Value.list (as.map f)).Plain (room + 1) :=
  .list (List.forall_mem_map.mpr h)

namespace Token

variable {c : Char} {cs rest : List Char} {t : Token} {ts : List Token} {n : Nat}

/-! ## 2. The steps of the cutting -/

/-- A text and its tokens, with any number of steps that is enough. -/
def Scans (cs : List Char) (ts : List Token) : Prop :=
  ∀ fuel, cs.length ≤ fuel → scanFrom fuel cs = ts

theorem Scans.scan_eq (h : Scans cs ts) : scan cs = ts := h _ (Nat.le_refl _)

theorem Scans.nil : Scans [] [] := fun fuel _ => by cases fuel <;> rfl

theorem Scans.space (h : Scans cs ts) (hc : isSpace c = true) : Scans (c :: cs) ts := by
  intro fuel hfuel
  cases fuel with
  | zero => cases hfuel
  | succ fuel =>
      rw [scanFrom, if_pos hc]
      exact h fuel (Nat.le_of_succ_le_succ hfuel)

theorem Scans.bracket (h : Scans cs ts) (hc : isSpace c = false) (hb : ofBracket c = some t) :
    Scans (c :: cs) (t :: ts) := by
  intro fuel hfuel
  cases fuel with
  | zero => cases hfuel
  | succ fuel =>
      simp only [scanFrom, hc, hb, Bool.false_eq_true, if_false]
      rw [h fuel (Nat.le_of_succ_le_succ hfuel)]

theorem Scans.word (h : Scans rest ts) (hc : isSpace c = false) (hb : ofBracket c = none)
    (hw : scanWord (c :: cs) = some (t, rest)) (hlen : rest.length ≤ cs.length) :
    Scans (c :: cs) (t :: ts) := by
  intro fuel hfuel
  cases fuel with
  | zero => cases hfuel
  | succ fuel =>
      simp only [scanFrom, hc, hb, hw, Bool.false_eq_true, if_false]
      rw [h fuel (Nat.le_trans hlen (Nat.le_of_succ_le_succ hfuel))]

theorem Scans.newline (h : Scans cs ts) (level : Nat) : Scans (newline level cs) ts := by
  have hblanks : ∀ k, Scans (List.replicate k ' ' ++ cs) ts := by
    intro k
    induction k with
    | zero => exact h
    | succ k ih => exact ih.space rfl
  exact (hblanks _).space rfl

/-! ## 3. Strings -/

theorem joinPieces_unit {u : Nat} (hu : u < 0xd800) (ps : List Piece) :
    joinPieces (.unit u :: ps) = (joinPieces ps).map (Char.ofNat u :: ·) := by
  have hleading : isLeading u = false := by simp [isLeading]; omega
  have htrailing : isTrailing u = false := by simp [isTrailing]; omega
  cases ps with
  | nil => simp [joinPieces, hleading, htrailing]
  | cons p ps => cases p <;> simp [joinPieces, hleading, htrailing]

theorem hexValue_hexDigit : ∀ d < 16, hexValue (hexDigit d) = some d := by decide

/-- How a character stands in a string: behind a backslash as a letter or as four digits, or as
    itself. -/
theorem escape_cases (c : Char) :
    (∃ e, unescape e = some c ∧ escape c = ['\\', e]) ∨
      (c.toNat < 0x20 ∧ escape c =
        ['\\', 'u', '0', '0', hexDigit (c.toNat / 16), hexDigit (c.toNat % 16)]) ∨
      (c ≠ '"' ∧ c ≠ '\\' ∧ ¬ c.toNat < 0x20 ∧ escape c = [c]) := by
  unfold escape
  split_ifs with hquote hback hb hf hn hr ht hcontrol
  · exact .inl ⟨'"', congrArg some hquote.symm, rfl⟩
  · exact .inl ⟨'\\', congrArg some hback.symm, rfl⟩
  · exact .inl ⟨'b', congrArg some hb.symm, rfl⟩
  · exact .inl ⟨'f', congrArg some hf.symm, rfl⟩
  · exact .inl ⟨'n', congrArg some hn.symm, rfl⟩
  · exact .inl ⟨'r', congrArg some hr.symm, rfl⟩
  · exact .inl ⟨'t', congrArg some ht.symm, rfl⟩
  · exact .inr (.inl ⟨hcontrol, rfl⟩)
  · exact .inr (.inr ⟨hquote, hback, hcontrol, rfl⟩)

theorem scanPieces_letter {e : Char} (he : unescape e = some c) {ps : List Piece}
    (h : scanPieces cs = some (ps, rest)) :
    scanPieces ('\\' :: e :: cs) = some (.char c :: ps, rest) := by
  have hu : e ≠ 'u' := by
    intro hu
    subst hu
    cases he
  simp [scanPieces, hu, he, h]

theorem scanPieces_unit (hc : c.toNat < 0x20) {ps : List Piece}
    (h : scanPieces cs = some (ps, rest)) :
    scanPieces ('\\' :: 'u' :: '0' :: '0' :: hexDigit (c.toNat / 16) :: hexDigit (c.toNat % 16) ::
      cs) = some (.unit c.toNat :: ps, rest) := by
  have hzero : hexValue '0' = some 0 := by decide
  have hunit : hexUnit '0' '0' (hexDigit (c.toNat / 16)) (hexDigit (c.toNat % 16)) =
      some c.toNat := by
    simp only [hexUnit, hzero, hexValue_hexDigit _ (show c.toNat / 16 < 16 by omega),
      hexValue_hexDigit _ (show c.toNat % 16 < 16 by omega)]
    exact congrArg some (by omega)
  rw [scanPieces, hunit, h]

/-- **One character**: what stands for it in a string is read as a piece of that character. -/
theorem exists_piece (c : Char) : ∃ p : Piece,
    (∀ ps, joinPieces (p :: ps) = (joinPieces ps).map (c :: ·)) ∧
      ∀ {cs ps rest}, scanPieces cs = some (ps, rest) →
        scanPieces (escape c ++ cs) = some (p :: ps, rest) := by
  rcases escape_cases c with ⟨e, he, hesc⟩ | ⟨hc, hesc⟩ | ⟨hquote, hback, hc, hesc⟩
  · exact ⟨.char c, fun ps => rfl, fun h => hesc ▸ scanPieces_letter he h⟩
  · refine ⟨.unit c.toNat, fun ps => ?_, fun h => hesc ▸ scanPieces_unit hc h⟩
    rw [joinPieces_unit (by omega), Char.ofNat_toNat]
  · refine ⟨.char c, fun ps => rfl, fun h => ?_⟩
    simp [hesc, scanPieces, hback, hc, h]

theorem exists_pieces (cs rest : List Char) :
    ∃ ps, scanPieces (writeChars cs rest) = some (ps, rest) ∧ joinPieces ps = some cs := by
  induction cs with
  | nil => exact ⟨[], by rw [writeChars, scanPieces], rfl⟩
  | cons c cs ih =>
      obtain ⟨ps, hscan, hjoin⟩ := ih
      obtain ⟨p, hpiece, hread⟩ := exists_piece c
      exact ⟨p :: ps, hread hscan, by rw [hpiece, hjoin]; rfl⟩

/-- **A string** is read back, whatever its characters. -/
theorem scanWord_writeText (s : String) (rest : List Char) :
    scanWord (writeText s rest) = some (text s, rest) := by
  obtain ⟨ps, hscan, hjoin⟩ := exists_pieces s.toList rest
  rw [writeText, scanWord, hscan]
  simp [ofPieces, hjoin]

theorem length_le_writeChars (cs rest : List Char) : rest.length ≤ (writeChars cs rest).length := by
  induction cs with
  | nil => exact Nat.le_succ _
  | cons c cs ih => rw [writeChars, List.length_append]; omega

theorem Scans.writeText (h : Scans rest ts) (s : String) :
    Scans (writeText s rest) (text s :: ts) :=
  h.word rfl rfl (scanWord_writeText s rest) (length_le_writeChars _ _)

/-! ## 4. Numbers -/

/-- A text in front of which a number may stand: it starts with nothing that could belong to it. -/
def Ends (rest : List Char) : Prop :=
  ∀ c ∈ rest.head?, c.isDigit = false ∧ c ≠ '.' ∧ c ≠ 'e' ∧ c ≠ 'E'

theorem le_ofDigitChars (n : Nat) (cs : List Char) : n ≤ Nat.ofDigitChars 10 cs n := by
  induction cs generalizing n with
  | nil => exact Nat.le_refl n
  | cons c cs ih =>
      rw [Nat.ofDigitChars_cons]
      exact Nat.le_trans (by omega) (ih _)

theorem gather_eq (h : Nat.ofDigitChars 10 cs n ≤ Count.limit) :
    gather n cs = (Nat.ofDigitChars 10 cs n, []) := by
  induction cs generalizing n with
  | nil => rfl
  | cons c cs ih =>
      rw [Nat.ofDigitChars_cons] at h ⊢
      rw [gather, if_pos (Nat.le_trans (le_ofDigitChars _ cs) h)]
      exact ih h

theorem isDigit_of_mem_toDigits (hc : c ∈ Nat.toDigits 10 n) : c.isDigit = true :=
  Nat.isDigit_of_mem_toDigits (by decide : 0 < 10) (by decide) hc

/-- A number other than zero does not start with a zero. -/
theorem toDigits_head (hn : n ≠ 0) : ∃ d ds, Nat.toDigits 10 n = d :: ds ∧ d ≠ '0' := by
  induction n using Nat.strongRecOn with
  | ind n ih =>
      by_cases h : n < 10
      · rw [Nat.toDigits_of_lt_base h]
        have hdigit : ∀ k < 10, k ≠ 0 → Nat.digitChar k ≠ '0' := by decide
        exact ⟨_, [], rfl, hdigit n h hn⟩
      · obtain ⟨d, ds, hds, hd⟩ := ih (n / 10) (by omega) (by omega)
        rw [Nat.toDigits_of_base_le (by omega) (by omega), hds]
        exact ⟨d, ds ++ _, rfl, hd⟩

theorem scanWhole_toDigits (n : Nat) (hends : Ends rest) :
    scanWhole (Nat.toDigits 10 n ++ rest) = some (Nat.toDigits 10 n, rest) := by
  have hrest : rest.takeWhile Char.isDigit = [] ∧ rest.dropWhile Char.isDigit = rest := by
    cases rest with
    | nil => exact ⟨rfl, rfl⟩
    | cons c cs => simp [(hends c rfl).1]
  by_cases hn : n = 0
  · subst hn
    cases rest with
    | nil => rfl
    | cons c cs => simp [scanWhole, (hends c rfl).1]
  · obtain ⟨d, ds, hds, hd⟩ := toDigits_head hn
    have htake : (d :: ds ++ rest).takeWhile Char.isDigit = d :: ds := by
      rw [← hds, List.takeWhile_append_of_pos fun c => isDigit_of_mem_toDigits, hrest.1,
        List.append_nil]
    have hdrop : (d :: ds ++ rest).dropWhile Char.isDigit = rest := by
      rw [← hds, List.dropWhile_append_of_pos fun c => isDigit_of_mem_toDigits, hrest.2]
    rw [hds, scanWhole.eq_2 (d :: ds ++ rest) fun _ h => hd (List.cons.inj h).1, htake, hdrop]

theorem ne_of_isDigit {d : Char} (hd : d.isDigit = true) (hc : c.isDigit = false) : d ≠ c :=
  fun h => by rw [h, hc] at hd; cases hd

/-- **A number** is read back if it is a count and nothing behind it could belong to it. -/
theorem scanWord_toDigits (hn : n ≤ Count.limit) (hends : Ends rest) :
    scanWord (Nat.toDigits 10 n ++ rest) = some (number (.natural n), rest) := by
  have hfraction : scanFraction rest = some (none, rest) :=
    scanFraction.eq_2 _ fun cs h => (hends '.' (by rw [h]; rfl)).2.1 rfl
  have hpower : scanPower rest = some (none, rest) := by
    cases rest with
    | nil => rfl
    | cons c cs => simp [scanPower, (hends c rfl).2.2]
  have hgather : gather 0 (Nat.toDigits 10 n) = (n, []) := by
    have hvalue : Nat.ofDigitChars 10 (Nat.toDigits 10 n) 0 = n :=
      Nat.ofDigitChars_toDigits (by decide) (by decide)
    rw [gather_eq (hvalue.symm ▸ hn), hvalue]
  have hwhole := scanWhole_toDigits n hends
  obtain ⟨d, ds, hds⟩ := List.exists_cons_of_ne_nil (Nat.toDigits_ne_nil (b := 10) (n := n))
  have hne : ∀ {c : Char}, c.isDigit = false → ∀ {cs}, d :: ds ++ rest = c :: cs → False :=
    fun hc _ h => ne_of_isDigit (isDigit_of_mem_toDigits (hds ▸ List.mem_cons_self)) hc
      (List.cons.inj h).1
  rw [hds] at hwhole hgather ⊢
  have hnumeral : scanNumeral (d :: ds ++ rest) = some (⟨false, d :: ds, none, none⟩, rest) := by
    rw [scanNumeral.eq_2 (d :: ds ++ rest) fun _ => hne rfl, hwhole]
    simp [hfraction, hpower]
  rw [scanWord.eq_5 (d :: ds ++ rest) (fun _ => hne rfl) (fun _ => hne rfl) (fun _ => hne rfl)
    fun _ => hne rfl, hnumeral]
  simp [ofNumeral, hgather]

theorem Scans.toDigits (h : Scans rest ts) (hends : Ends rest) (hn : n ≤ Count.limit) :
    Scans (Nat.toDigits 10 n ++ rest) (number (.natural n) :: ts) := by
  have hword := scanWord_toDigits hn hends
  obtain ⟨d, ds, hds⟩ := List.exists_cons_of_ne_nil (Nat.toDigits_ne_nil (b := 10) (n := n))
  have hne : ∀ {c : Char}, c.isDigit = false → d ≠ c :=
    fun hc => ne_of_isDigit (isDigit_of_mem_toDigits (hds ▸ List.mem_cons_self)) hc
  have hspace : isSpace d = false := by
    simp [isSpace, @hne ' ' rfl, @hne '\n' rfl, @hne '\t' rfl, @hne '\r' rfl]
  have hbracket : ofBracket d = none :=
    ofBracket.eq_7 d (hne rfl) (hne rfl) (hne rfl) (hne rfl) (hne rfl) (hne rfl)
  rw [hds] at hword ⊢
  exact h.word hspace hbracket hword (List.suffix_append ds rest).length_le

end Token

/-! ## 5. Values -/

namespace Value

open Token

variable {room : Nat} {v : Value} {rest : List Char} {ts : List Token}
  {vs : List Value} {ms : List (String × Value)}

/-- **A value is cut as it should be**: its text has its tokens, at any level and in front of any
    text that does not go on with it. -/
def IsCut (v : Value) : Prop :=
  ∀ level {rest ts}, Ends rest → Scans rest ts →
    Scans (v.writePretty level rest) (v.tokens ++ ts)

theorem ends_writePrettyItems (vs : List Value) (level : Nat) (rest : List Char) :
    Ends (writePrettyItems vs level rest) := by
  cases vs <;> exact fun c hc => by obtain rfl := Option.some.inj hc; decide

theorem ends_writePrettyMembers (ms : List (String × Value)) (level : Nat) (rest : List Char) :
    Ends (writePrettyMembers ms level rest) := by
  cases ms <;> exact fun c hc => by obtain rfl := Option.some.inj hc; decide

/-- A member on a line of its own. -/
theorem IsCut.member (hv : v.IsCut) (hends : Ends rest) (hs : Scans rest ts) (name : String)
    (level : Nat) :
    Scans (newline level (writeText name (':' :: ' ' :: v.writePretty level rest)))
      (.text name :: .colon :: (v.tokens ++ ts)) := by
  have hcolon := ((hv level hends hs).space (c := ' ') rfl).bracket (c := ':') rfl rfl
  exact (hcolon.writeText name).newline level

theorem scans_items (hvs : ∀ v ∈ vs, v.IsCut) (hs : Scans rest ts) (level : Nat) :
    Scans (writePrettyItems vs level rest) (itemTokens vs false ++ ts) := by
  induction vs with
  | nil => exact (hs.bracket rfl rfl).newline level
  | cons v vs ih =>
      rw [itemTokens, List.append_assoc, List.append_assoc]
      have hrest := ih fun w hw => hvs w (List.mem_cons_of_mem v hw)
      have hv := hvs v List.mem_cons_self (level + 1) (ends_writePrettyItems vs level rest) hrest
      exact (hv.newline (level + 1)).bracket rfl rfl

theorem scans_members (hms : ∀ m ∈ ms, m.2.IsCut) (hs : Scans rest ts) (level : Nat) :
    Scans (writePrettyMembers ms level rest) (memberTokens ms false ++ ts) := by
  induction ms with
  | nil => exact (hs.bracket rfl rfl).newline level
  | cons m ms ih =>
      rw [memberTokens, List.append_assoc, List.cons_append, List.cons_append, List.append_assoc]
      have hrest := ih fun w hw => hms w (List.mem_cons_of_mem m hw)
      have hm := (hms m List.mem_cons_self).member (ends_writePrettyMembers ms level rest) hrest
      exact (hm m.1 (level + 1)).bracket rfl rfl

theorem Plain.isCut (h : v.Plain room) : v.IsCut := by
  induction h with
  | null => exact fun _ _ _ _ hs => hs.word rfl rfl rfl (Nat.le_add_right _ 3)
  | bool b =>
      cases b with
      | true => exact fun _ _ _ _ hs => hs.word rfl rfl rfl (Nat.le_add_right _ 3)
      | false => exact fun _ _ _ _ hs => hs.word rfl rfl rfl (Nat.le_add_right _ 4)
  | count hn => exact fun _ _ _ hends hs => hs.toDigits hends hn
  | text s => exact fun _ _ _ _ hs => hs.writeText s
  | @list room items _ ih =>
      intro level rest ts _ hs
      cases items with
      | nil => exact (hs.bracket rfl rfl).bracket rfl rfl
      | cons v vs =>
          have hrest := scans_items (fun w hw => ih w (List.mem_cons_of_mem v hw)) hs level
          have hv := ih v List.mem_cons_self (level + 1) (ends_writePrettyItems vs level rest) hrest
          rw [tokens, itemTokens, List.cons_append, List.append_assoc, List.append_assoc]
          exact (hv.newline (level + 1)).bracket rfl rfl
  | @object room members _ ih =>
      intro level rest ts _ hs
      cases members with
      | nil => exact (hs.bracket rfl rfl).bracket rfl rfl
      | cons m ms =>
          have hrest := scans_members (fun w hw => ih w (List.mem_cons_of_mem m hw)) hs level
          have hm := (ih m List.mem_cons_self).member (ends_writePrettyMembers ms level rest) hrest
          rw [tokens, memberTokens, List.cons_append, List.append_assoc, List.cons_append,
            List.cons_append, List.append_assoc]
          exact (hm m.1 (level + 1)).bracket rfl rfl

/-- **The text of a value has the tokens of the value.** -/
theorem Plain.scan_pretty (h : v.Plain room) : scan v.pretty.toList = v.tokens := by
  have hends : Ends [] := fun c hc => by cases hc
  rw [pretty, String.toList_ofList, (h.isCut 0 hends Scans.nil).scan_eq, List.append_nil]

end Value

end DesignSpace.Json
