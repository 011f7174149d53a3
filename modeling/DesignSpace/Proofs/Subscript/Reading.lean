/-
  Subject:   HOW A SUBSCRIPT IS READ, told without the reader: what is left of a text without the
             blanks at its ends, the identifiers that stand in it from left to right, each as long
             as it can be, and their order of first occurrence.

  * `Text.Trimmed`, `trimmed_iff`: a text without the blanks at its ends;
  * `Subscript.Starts`, `Continues`, `Admissible`: the characters;
  * `Subscript.Identifiers`, `identifiers_iff`: **the identifiers in a text**;
  * `FirstMet`, `firstMet_iff`: each member of a list once, in the order of first occurrence;
  * `Subscript.Denotes`: a text with the subscript that it denotes;
  * `Subscript.exact_reading`: **a subscript is read just from the texts that denote it**.
-/
import DesignSpace.Proofs.Subscript

namespace DesignSpace

/-! ## 1. Blanks at the ends -/

namespace Text

variable {p : Char → Bool} {front rest s t : List Char}

/-- A text splits where a property of its first characters ends. -/
theorem exists_span (p : Char → Bool) (cs : List Char) : ∃ front rest, cs = front ++ rest ∧
    (∀ c ∈ front, p c = true) ∧ ∀ c ∈ rest.head?, ¬ p c = true := by
  refine ⟨cs.takeWhile p, cs.dropWhile p, List.takeWhile_append_dropWhile.symm, fun c => ?_,
    fun c hc => ?_⟩
  · exact List.mem_takeWhile_imp
  · have hstop := List.head?_dropWhile_not p cs
    rw [Option.mem_def.mp hc] at hstop
    simpa using hstop

theorem dropWhile_span (hfront : ∀ c ∈ front, p c = true) (hrest : ∀ c ∈ rest.head?, ¬ p c = true) :
    (front ++ rest).dropWhile p = rest := by
  rw [List.dropWhile_append_of_pos hfront]
  cases rest with
  | nil => rfl
  | cons c rest => exact List.dropWhile_cons_of_neg (hrest c rfl)

/-- `t` is `s` without the blanks at both ends. -/
structure Trimmed (s t : List Char) : Prop where
  ends : ∃ front back, s = front ++ (t ++ back) ∧
    (∀ c ∈ front, isBlank c = true) ∧ ∀ c ∈ back, isBlank c = true
  first : ∀ c ∈ t.head?, ¬ isBlank c = true
  last : ∀ c ∈ t.getLast?, ¬ isBlank c = true

theorem Trimmed.eq_trimChars (h : Trimmed s t) : t = trimChars s := by
  obtain ⟨front, back, rfl, hfront, hback⟩ := h.ends
  rw [trimChars, List.dropWhile_append_of_pos hfront]
  cases t with
  | nil => rw [List.nil_append, List.dropWhile_eq_nil_iff.mpr hback]; rfl
  | cons c cs =>
      have hlast : ∀ d ∈ (c :: cs).reverse.head?, ¬ isBlank d = true := by
        rw [List.head?_reverse]
        exact h.last
      have hends : ∀ d ∈ back.reverse, isBlank d = true :=
        fun d hd => hback d (List.mem_reverse.mp hd)
      rw [List.cons_append, List.dropWhile_cons_of_neg (h.first c rfl), ← List.cons_append,
        List.reverse_append, dropWhile_span hends hlast, List.reverse_reverse]

theorem exists_trimmed (s : List Char) : ∃ t, Trimmed s t := by
  obtain ⟨front, rest, rfl, hfront, hrest⟩ := exists_span isBlank s
  obtain ⟨back, t, hsplit, hback, hlast⟩ := exists_span isBlank rest.reverse
  have hrest' : rest = t.reverse ++ back.reverse := by
    rw [← List.reverse_append, ← hsplit, List.reverse_reverse]
  refine ⟨t.reverse, ⟨front, back.reverse, by rw [hrest'], hfront, fun c hc => ?_⟩,
    fun c hc => ?_, fun c hc => ?_⟩
  · exact hback c (List.mem_reverse.mp hc)
  · refine hrest c ?_
    rw [hrest', List.head?_append, Option.mem_def.mp hc]
    rfl
  · rw [List.getLast?_reverse] at hc
    exact hlast c hc

/-- **Blanks are taken away from both ends**, as many as there are. -/
theorem trimmed_iff : Trimmed s t ↔ t = trimChars s := by
  constructor
  · exact Trimmed.eq_trimChars
  · rintro rfl
    obtain ⟨t, ht⟩ := exists_trimmed s
    exact ht.eq_trimChars ▸ ht

end Text

/-! ## 2. Characters -/

namespace Subscript

/-- The first character of an identifier. -/
def Starts (c : Char) : Prop := ('A' ≤ c ∧ c ≤ 'Z') ∨ ('a' ≤ c ∧ c ≤ 'z') ∨ c = '_'

/-- A further character of an identifier. -/
def Continues (c : Char) : Prop := Starts c ∨ ('0' ≤ c ∧ c ≤ '9')

/-- A character of a subscript. -/
def Admissible (c : Char) : Prop :=
  Continues c ∨ c = '+' ∨ c = '-' ∨ c = '*' ∨ Text.isBlank c = true

theorem isAlpha_iff {c : Char} :
    c.isAlpha = true ↔ ('A' ≤ c ∧ c ≤ 'Z') ∨ ('a' ≤ c ∧ c ≤ 'z') := by
  have hupper : c.isUpper = true ↔ 'A' ≤ c ∧ c ≤ 'Z' := decide_eq_true_iff
  have hlower : c.isLower = true ↔ 'a' ≤ c ∧ c ≤ 'z' :=
    Bool.and_eq_true_iff.trans (and_congr decide_eq_true_iff decide_eq_true_iff)
  exact Bool.or_eq_true_iff.trans (or_congr hupper hlower)

theorem isAlphanum_iff {c : Char} :
    c.isAlphanum = true ↔ c.isAlpha = true ∨ ('0' ≤ c ∧ c ≤ '9') := by
  have hdigit : c.isDigit = true ↔ '0' ≤ c ∧ c ≤ '9' :=
    Bool.and_eq_true_iff.trans (and_congr decide_eq_true_iff decide_eq_true_iff)
  exact Bool.or_eq_true_iff.trans (or_congr Iff.rfl hdigit)

theorem isLetter_iff {c : Char} : isLetter c = true ↔ Starts c := by
  simp [isLetter, Starts, isAlpha_iff, or_assoc]

theorem isWordChar_iff {c : Char} : isWordChar c = true ↔ Continues c := by
  rw [Continues, ← isLetter_iff]
  simp [isWordChar, isLetter, isAlphanum_iff, or_right_comm]

theorem isAllowed_iff {c : Char} : isAllowed c = true ↔ Admissible c := by
  rw [Admissible, ← isWordChar_iff]
  simp [isAllowed, or_assoc]

/-! ## 3. Identifiers -/

/-- The identifiers in a text from left to right. What stands before an identifier holds no
    character that could start one, and what stands behind it does not continue it. -/
inductive Identifiers : List Char → List String → Prop
  | gap {gap : List Char} (hgap : ∀ c ∈ gap, ¬ Starts c) : Identifiers gap []
  | next {gap more rest : List Char} {c : Char} {names : List String}
      (hgap : ∀ c ∈ gap, ¬ Starts c) (hstart : Starts c) (hmore : ∀ d ∈ more, Continues d)
      (hend : ∀ d ∈ rest.head?, ¬ Continues d) (hrest : Identifiers rest names) :
      Identifiers (gap ++ (c :: more ++ rest)) (String.ofList (c :: more) :: names)

theorem words_gap {gap : List Char} (hgap : ∀ c ∈ gap, ¬ Starts c) (cs : List Char) :
    words [] (gap ++ cs) = words [] cs := by
  induction gap with
  | nil => rfl
  | cons c gap ih =>
      have hc : ¬ isLetter c = true := fun h => hgap c List.mem_cons_self (isLetter_iff.mp h)
      rw [List.cons_append, words, if_neg hc]
      exact ih fun d hd => hgap d (List.mem_cons_of_mem c hd)

/-- A word is read up to where nothing continues it. -/
theorem words_more {more rest : List Char} (hmore : ∀ d ∈ more, Continues d)
    (hend : ∀ d ∈ rest.head?, ¬ Continues d) (w : Char) (ws : List Char) :
    words (w :: ws) (more ++ rest) = ((w :: ws).reverse ++ more) :: words [] rest := by
  induction more generalizing w ws with
  | nil =>
      rw [List.nil_append, List.append_nil]
      cases rest with
      | nil => rfl
      | cons d rest =>
          have hd : ¬ Continues d := hend d rfl
          have hword : ¬ isWordChar d = true := fun h => hd (isWordChar_iff.mp h)
          have hletter : ¬ isLetter d = true := fun h => hd (.inl (isLetter_iff.mp h))
          conv_lhs => rw [words, if_neg hword]
          conv_rhs => rw [words, if_neg hletter]
  | cons d more ih =>
      have hd : isWordChar d = true := isWordChar_iff.mpr (hmore d List.mem_cons_self)
      have hrest := ih (fun c hc => hmore c (List.mem_cons_of_mem d hc)) d (w :: ws)
      rw [List.cons_append, words, if_pos hd, hrest, List.reverse_cons, List.append_assoc]
      rfl

/-- The reader finds the identifiers of a text. -/
theorem Identifiers.eq_words {cs : List Char} {names : List String} (h : Identifiers cs names) :
    names = (words [] cs).map String.ofList := by
  induction h with
  | @gap gap hgap =>
      have hwords := words_gap hgap []
      rw [List.append_nil] at hwords
      rw [hwords]
      rfl
  | @next gap more rest c names hgap hstart hmore hend _ ih =>
      have hc : isLetter c = true := isLetter_iff.mpr hstart
      rw [words_gap hgap, List.cons_append, words, if_pos hc, words_more hmore hend, ih]
      rfl

/-- Every text has identifiers, perhaps none at all. -/
theorem exists_identifiers (cs : List Char) : ∃ names, Identifiers cs names := by
  induction hlength : cs.length using Nat.strong_induction_on generalizing cs with
  | _ length ih =>
      obtain ⟨gap, tail, rfl, hgap, htail⟩ := Text.exists_span (fun c => !isLetter c) cs
      have hgap' : ∀ c ∈ gap, ¬ Starts c := by
        intro c hc hstart
        simpa [isLetter_iff.mpr hstart] using hgap c hc
      cases tail with
      | nil => exact ⟨[], .gap (by rwa [List.append_nil])⟩
      | cons c tail =>
          have hstart : Starts c := isLetter_iff.mp (by simpa using htail c rfl)
          obtain ⟨more, rest, rfl, hmore, hend⟩ := Text.exists_span isWordChar tail
          have hshort : rest.length < length := by
            rw [← hlength]
            simp only [List.length_append, List.length_cons]
            omega
          obtain ⟨names, hnames⟩ := ih _ hshort rest rfl
          exact ⟨_, .next hgap' hstart (fun d hd => isWordChar_iff.mp (hmore d hd))
            (fun d hd hcont => hend d hd (isWordChar_iff.mpr hcont)) hnames⟩

/-- **The identifiers in a text** are the words that the reader finds. -/
theorem identifiers_iff {cs : List Char} {names : List String} :
    Identifiers cs names ↔ names = (words [] cs).map String.ofList := by
  constructor
  · exact Identifiers.eq_words
  · intro h
    obtain ⟨names', hnames⟩ := exists_identifiers cs
    rw [h, ← hnames.eq_words]
    exact hnames

end Subscript

/-! ## 4. First occurrences -/

/-- The members of a list, each once, in the order of their first occurrence. -/
structure FirstMet (all names : List String) : Prop where
  mem_iff : ∀ name, name ∈ names ↔ name ∈ all
  nodup : names.Nodup
  ordered : names.Pairwise fun a b => all.idxOf a < all.idxOf b

/-- One more member is added at the end, unless it is there. -/
theorem eraseDups_concat (all : List String) (name : String) :
    (all ++ [name]).eraseDups = all.eraseDups ++ if name ∈ all then [] else [name] := by
  rw [List.eraseDups_append]
  by_cases h : name ∈ all <;> simp [List.removeAll, List.eraseDups_cons, h]

theorem ordered_eraseDups (all : List String) :
    all.eraseDups.Pairwise fun a b => all.idxOf a < all.idxOf b := by
  induction all using List.reverseRecOn with
  | nil => exact .nil
  | append_singleton all name ih =>
      have hidx : ∀ a ∈ all.eraseDups, (all ++ [name]).idxOf a = all.idxOf a :=
        fun a ha => List.idxOf_append_of_mem (List.mem_eraseDups.mp ha)
      rw [eraseDups_concat]
      refine List.pairwise_append.mpr ⟨?_, ?_, fun a ha b hb => ?_⟩
      · refine ih.imp_of_mem fun ha hb h => ?_
        rw [hidx _ ha, hidx _ hb]
        exact h
      · split
        · exact .nil
        · exact List.pairwise_singleton _ _
      · -- a member that is added stands behind all others
        have hnew : b = name ∧ name ∉ all := by
          split at hb
          · exact absurd hb List.not_mem_nil
          · exact ⟨List.mem_singleton.mp hb, ‹_›⟩
        have hlt := List.idxOf_lt_length_of_mem (List.mem_eraseDups.mp ha)
        rw [hidx a ha, hnew.1, List.idxOf_append_of_notMem hnew.2]
        omega

theorem firstMet_eraseDups (all : List String) : FirstMet all all.eraseDups where
  mem_iff _ := List.mem_eraseDups
  nodup := (ordered_eraseDups all).imp fun h heq => absurd (heq ▸ h) (Nat.lt_irrefl _)
  ordered := ordered_eraseDups all

/-- **The order of first occurrence** is that of the list without its repetitions. -/
theorem firstMet_iff {all names : List String} : FirstMet all names ↔ names = all.eraseDups := by
  constructor
  · intro h
    have hall := firstMet_eraseDups all
    have hperm : names.Perm all.eraseDups := by
      refine (List.perm_ext_iff_of_nodup h.nodup hall.nodup).mpr fun name => ?_
      rw [h.mem_iff, hall.mem_iff]
    exact hperm.eq_of_pairwise
      (fun a b _ _ hab hba => absurd hab (Nat.lt_asymm hba)) h.ordered hall.ordered
  · rintro rfl
    exact firstMet_eraseDups all

/-! ## 5. Subscripts -/

namespace Subscript

/-- **A text with the subscript that it denotes**: the text without the blanks at its ends, which is
    not empty and holds admissible characters only, and the identifiers in it, each once, in the
    order of their first occurrence. -/
structure Denotes (s : String) (x : Subscript) : Prop where
  trimmed : Text.Trimmed s.toList x.text.toList
  nonempty : x.text.toList ≠ []
  admissible : ∀ c ∈ x.text.toList, Admissible c
  names : ∃ all, Identifiers x.text.toList all ∧ FirstMet all x.names

variable {s : String} {x : Subscript}

/-- The subscript that the reader makes of a text without blanks at its ends. -/
def ofChars (cs : List Char) : Subscript :=
  ⟨String.ofList cs, ((words [] cs).map String.ofList).eraseDups⟩

theorem denotes_iff : Denotes s x ↔
    (Text.trimChars s.toList ≠ [] ∧ ∀ c ∈ Text.trimChars s.toList, Admissible c) ∧
      x = ofChars (Text.trimChars s.toList) := by
  constructor
  · rintro ⟨htrimmed, hnonempty, hadmissible, all, hall, hnames⟩
    rw [← Text.trimmed_iff.mp htrimmed]
    refine ⟨⟨hnonempty, hadmissible⟩, ?_⟩
    rw [ofChars, String.ofList_toList, ← identifiers_iff.mp hall, ← firstMet_iff.mp hnames]
  · rintro ⟨⟨hnonempty, hadmissible⟩, rfl⟩
    have htext : (ofChars (Text.trimChars s.toList)).text.toList = Text.trimChars s.toList :=
      String.toList_ofList
    refine ⟨?_, ?_, ?_, _, identifiers_iff.mpr rfl, ?_⟩
    · exact Text.trimmed_iff.mpr htext
    · rwa [htext]
    · rwa [htext]
    · rw [htext]
      exact firstMet_eraseDups _

theorem parse?_eq_some_iff : parse? s = some x ↔ Denotes s x := by
  rw [denotes_iff, parse?]
  generalize Text.trimChars s.toList = cs
  have hok : (cs.isEmpty || !cs.all isAllowed) = false ↔ cs ≠ [] ∧ ∀ c ∈ cs, Admissible c := by
    simp [isAllowed_iff]
  rw [← hok]
  cases cs.isEmpty || !cs.all isAllowed with
  | true => simp
  | false => exact ⟨fun h => ⟨rfl, (Option.some.inj h).symm⟩, fun h => congrArg some h.2.symm⟩

/-- **A subscript is read just from the texts that denote it.** It is read from every text in which
    something is left without the blanks at the ends, and nothing but letters, digits, `_`, `+`,
    `-`, `*` and blanks; and it is read again from its own text. -/
theorem exact_reading (s : String) :
    (∀ x, parse? s = some x ↔ Denotes s x) ∧
      ((∃ x, parse? s = some x) ↔
        ∃ t, Text.Trimmed s.toList t ∧ t ≠ [] ∧ ∀ c ∈ t, Admissible c) ∧
      ∀ x, parse? s = some x → parse? x.text = some x := by
  refine ⟨fun x => parse?_eq_some_iff, ⟨?_, ?_⟩, fun x => parse?_text⟩
  · rintro ⟨x, hx⟩
    have hdenotes := parse?_eq_some_iff.mp hx
    exact ⟨_, hdenotes.trimmed, hdenotes.nonempty, hdenotes.admissible⟩
  · rintro ⟨t, htrimmed, ht⟩
    rw [Text.trimmed_iff.mp htrimmed] at ht
    exact ⟨_, parse?_eq_some_iff.mpr (denotes_iff.mpr ⟨ht, rfl⟩)⟩

/-- A digit starts no identifier, a repeated one counts once, and blanks of every kind go. -/
theorem exact_reading_glued :
    parse? "\u3000 2i3+k_1 * i3-4k\t" = some ⟨"2i3+k_1 * i3-4k", ["i3", "k_1", "k"]⟩ ∧
      Denotes "\u3000 2i3+k_1 * i3-4k\t" ⟨"2i3+k_1 * i3-4k", ["i3", "k_1", "k"]⟩ ∧
      parse? "2i3+k_1 * i3-4k" = some ⟨"2i3+k_1 * i3-4k", ["i3", "k_1", "k"]⟩ := by
  obtain ⟨hiff, -, hagain⟩ := exact_reading "\u3000 2i3+k_1 * i3-4k\t"
  have hread : parse? "\u3000 2i3+k_1 * i3-4k\t" =
      some ⟨"2i3+k_1 * i3-4k", ["i3", "k_1", "k"]⟩ := by decide +kernel
  exact ⟨hread, (hiff _).mp hread, hagain _ hread⟩

end Subscript

end DesignSpace
