/-
  Subject:   WHAT IS WRITTEN IS READ BACK, shape by shape. A reader reads a value if it takes the
             tokens of the value, whatever stands behind them, and nothing else.

  * `Reader.Reads`: a reader, a value, and what the reader makes of it;
  * `Reads.optional`, `Reads.choice`, `Reads.list`: the simple shapes;
  * `Fills`, `Reads.object`, `Reads.record`: members read one after the other;
  * `Reader.reads_slice`, `Reads.heldBack`: tokens held back, and read again;
  * `Reads.document_pretty`: **an indented text is read as the value it was written from**.
-/
import DesignSpace.Json.Reader
import DesignSpace.Proofs.Json.Tokens

namespace DesignSpace.Json

namespace Reader

variable {α β : Type} {r : Reader α} {v : Value} {a b : α} {ts rest : List Token}

/-! ## 1. Simple shapes -/

/-- **A reader reads a value** if it takes its tokens from the front of any others. -/
def Reads (r : Reader α) (v : Value) (a : α) : Prop :=
  ∀ rest, r (v.tokens ++ rest) = .ok (a, rest)

theorem bind_eq_of_ok {f : α → Reader β} (h : r ts = .ok (a, rest)) : (r >>= f) ts = f a rest := by
  show (r ts >>= fun p => f p.1 p.2) = _
  rw [h]
  rfl

/-- What is read may be put to use. -/
theorem Reads.map (h : Reads r v a) (f : α → β) : Reads (do return f (← r)) v (f a) :=
  fun rest => bind_eq_of_ok (h rest)

theorem reads_text (s : String) : Reads text (.text s) s := fun _ => rfl

theorem reads_flag (on : Bool) : Reads flag (.bool on) on := fun _ => rfl

theorem reads_natural {top n : Nat} (h : n ≤ top) : Reads (natural top) (.ofNat n) n :=
  fun _ => if_pos h

theorem reads_none : Reads (optional r) .null none := fun _ => rfl

theorem Reads.some (h : Reads r v a) (hv : v ≠ .null) : Reads (optional r) v (some a) := by
  intro rest
  cases v with
  | null => exact absurd rfl hv
  | bool on => exact bind_eq_of_ok (h rest)
  | number n => exact bind_eq_of_ok (h rest)
  | text s => exact bind_eq_of_ok (h rest)
  | list items => exact bind_eq_of_ok (h rest)
  | object members => exact bind_eq_of_ok (h rest)

theorem reads_choice {named : String → Option α} {s : String} (h : named s = .some a)
    (held : Bool) : Reads (choice named held) (.text s) a := by
  intro rest
  simp only [Value.tokens, List.cons_append, List.nil_append, choice, h]

/-! ## 2. Lists -/

theorem moreItems_tokens (first : Bool) (v : Value) (rest : List Token) :
    moreItems first (Token.lead first ++ (v.tokens ++ rest)) = .ok (true, v.tokens ++ rest) := by
  cases first <;> cases v <;> rfl

theorem length_tokens_pos (v : Value) : 0 < v.tokens.length := by
  cases v <;> exact Nat.succ_pos _

theorem length_lt_itemTokens (vs : List Value) (first : Bool) :
    vs.length < (itemTokens vs first).length := by
  induction vs generalizing first with
  | nil => exact Nat.lt_succ_self 0
  | cons v vs ih =>
      have hv := length_tokens_pos v
      have hvs := ih false
      rw [itemTokens, List.length_append, List.length_append, List.length_cons]
      omega

theorem itemsFrom_tokens {f : α → Value} {as : List α} (h : ∀ a ∈ as, Reads r (f a) a)
    {fuel : Nat} (hfuel : as.length < fuel) (first : Bool) (rest : List Token) :
    itemsFrom r fuel first (itemTokens (as.map f) first ++ rest) =
      .ok (as, .closeArray :: rest) := by
  induction as generalizing fuel first with
  | nil =>
      cases fuel with
      | zero => cases hfuel
      | succ fuel => rfl
  | cons a as ih =>
      cases fuel with
      | zero => cases hfuel
      | succ fuel =>
          rw [List.map_cons, itemTokens, List.append_assoc, List.append_assoc, itemsFrom,
            bind_eq_of_ok (moreItems_tokens first _ _), if_pos rfl,
            bind_eq_of_ok (h a List.mem_cons_self _),
            bind_eq_of_ok (ih (fun b hb => h b (List.mem_cons_of_mem a hb))
              (Nat.lt_of_succ_lt_succ hfuel) false)]
          rfl

/-- **A list** is read if its items are. -/
theorem reads_list {f : α → Value} {as : List α} (h : ∀ a ∈ as, Reads r (f a) a) :
    Reads (list r) (.list (as.map f)) as := by
  intro rest
  have hlength := length_lt_itemTokens (as.map f) true
  rw [List.length_map] at hlength
  have hfuel : as.length < (itemTokens (as.map f) true ++ rest).length + 1 := by
    rw [List.length_append]; omega
  exact bind_eq_of_ok (itemsFrom_tokens h hfuel true rest)

/-! ## 3. Objects -/

variable {fields : List (Field α)} {stray : String → Option (α → Reader α)}
  {ms : List (String × Value)} {met met' required : List String}

/-- **Members read one after the other**: from what was read before them, and the names met, to
    what is read in the end. -/
inductive Fills (fields : List (Field α)) (stray : String → Option (α → Reader α)) :
    List (String × Value) → List String → α → List String → α → Prop where
  | nil {met : List String} {a : α} : Fills fields stray [] met a met a
  | field {name : String} {v : Value} {ms : List (String × Value)} {met met' : List String}
    {f : Field α} {a b c : α} (hf : fields.find? (fun f => f.name = name) = .some f)
    (hmet : name ∉ met) (hr : Reads (f.read a) v b)
    (h : Fills fields stray ms (name :: met) b met' c) :
    Fills fields stray ((name, v) :: ms) met a met' c
  | stray {name : String} {v : Value} {ms : List (String × Value)} {met met' : List String}
    {read : α → Reader α} {a b c : α} (hf : fields.find? (fun f => f.name = name) = none)
    (hs : stray name = .some read) (hr : Reads (read a) v b)
    (h : Fills fields stray ms met b met' c) :
    Fills fields stray ((name, v) :: ms) met a met' c

theorem nextName_tokens (first : Bool) (name : String) (rest : List Token) :
    nextName first (Token.lead first ++ .text name :: rest) = .ok (some name, rest) := by
  cases first <;> rfl

theorem Fills.membersFrom (h : Fills fields stray ms met a met' b) {fuel : Nat}
    (hfuel : ms.length < fuel) (first : Bool) (rest : List Token) :
    membersFrom fields stray fuel first met a (memberTokens ms first ++ rest) =
      .ok ((met', b), rest) := by
  induction h generalizing fuel first with
  | nil =>
      cases fuel with
      | zero => cases hfuel
      | succ fuel => rfl
  | field hf hmet hr _ ih =>
      cases fuel with
      | zero => cases hfuel
      | succ fuel =>
          rw [memberTokens, List.append_assoc, List.cons_append, Reader.membersFrom,
            bind_eq_of_ok (nextName_tokens first _ _)]
          simp only [hf, hmet, if_false]
          rw [List.cons_append, List.append_assoc, bind_eq_of_ok rfl, bind_eq_of_ok (hr _)]
          exact ih (Nat.lt_of_succ_lt_succ hfuel) false
  | stray hf hs hr _ ih =>
      cases fuel with
      | zero => cases hfuel
      | succ fuel =>
          rw [memberTokens, List.append_assoc, List.cons_append, Reader.membersFrom,
            bind_eq_of_ok (nextName_tokens first _ _)]
          simp only [hf, hs]
          rw [List.cons_append, List.append_assoc, bind_eq_of_ok rfl, bind_eq_of_ok (hr _)]
          exact ih (Nat.lt_of_succ_lt_succ hfuel) false

theorem length_lt_memberTokens (ms : List (String × Value)) (first : Bool) :
    ms.length < (memberTokens ms first).length := by
  induction ms generalizing first with
  | nil => exact Nat.lt_succ_self 0
  | cons m ms ih =>
      have hms := ih false
      rw [memberTokens, List.length_append, List.length_cons, List.length_cons, List.length_cons,
        List.length_append]
      omega

/-- **An object** is read if its members are, and if none that is required is missing. -/
theorem Fills.object (h : Fills fields stray ms [] a met b)
    (hall : required.all (fun name => met.contains name) = true) :
    Reads (Reader.object fields required stray a) (.object ms) b := by
  intro rest
  have hlength := length_lt_memberTokens ms true
  have hfuel : ms.length < (memberTokens ms true ++ rest).length + 1 := by
    rw [List.length_append]; omega
  refine (bind_eq_of_ok (h.membersFrom hfuel true rest)).trans ?_
  show Reader.complete required met b rest = _
  rw [Reader.complete, if_pos hall]
  rfl

theorem Fills.record (h : Fills fields stray ms [] a met b)
    (hall : required.all (fun name => met.contains name) = true) :
    Reads (Reader.record fields required stray a) (.object ms) b := h.object hall

/-! ## 4. Tokens held back -/

variable {room : Nat} {vs : List Value}

/-- **A value is taken whole**: the reader of any value takes all its tokens, if it is granted a
    step for each of them. -/
def IsTaken (room : Nat) (v : Value) : Prop :=
  ∀ {fuel} rest, v.tokens.length ≤ fuel →
    ∃ w, valueFrom fuel room (v.tokens ++ rest) = .ok (w, rest)

theorem exists_valueItems (hvs : ∀ v ∈ vs, IsTaken room v) {fuel : Nat} (first : Bool)
    (rest : List Token) (hfuel : (itemTokens vs first).length ≤ fuel) :
    ∃ ws, valueItems fuel room first (itemTokens vs first ++ rest) = .ok (ws, rest) := by
  induction vs generalizing fuel first with
  | nil =>
      cases fuel with
      | zero => cases hfuel
      | succ fuel => exact ⟨[], rfl⟩
  | cons v vs ih =>
      have hv := length_tokens_pos v
      have hlast := length_lt_itemTokens vs false
      rw [itemTokens, List.length_append, List.length_append] at hfuel
      cases fuel with
      | zero => omega
      | succ fuel =>
          obtain ⟨w, hw⟩ := hvs v List.mem_cons_self (itemTokens vs false ++ rest)
            (show v.tokens.length ≤ fuel by omega)
          obtain ⟨ws, hws⟩ := ih (fun x hx => hvs x (List.mem_cons_of_mem v hx)) false
            (show (itemTokens vs false).length ≤ fuel by omega)
          refine ⟨w :: ws, ?_⟩
          rw [itemTokens, List.append_assoc, List.append_assoc, valueItems,
            bind_eq_of_ok (moreItems_tokens first _ _), if_pos rfl, bind_eq_of_ok hw,
            bind_eq_of_ok hws]
          rfl

theorem exists_valueMembers (hms : ∀ m ∈ ms, IsTaken room m.2) {fuel : Nat} (first : Bool)
    (before : List (String × Value)) (rest : List Token)
    (hfuel : (memberTokens ms first).length ≤ fuel) :
    ∃ ws, valueMembers fuel room first before (memberTokens ms first ++ rest) = .ok (ws, rest) := by
  induction ms generalizing fuel first before with
  | nil =>
      cases fuel with
      | zero => cases hfuel
      | succ fuel => exact ⟨before, rfl⟩
  | cons m ms ih =>
      have hlast := length_lt_memberTokens ms false
      rw [memberTokens, List.length_append, List.length_cons, List.length_cons,
        List.length_append] at hfuel
      cases fuel with
      | zero => omega
      | succ fuel =>
          obtain ⟨w, hw⟩ := hms m List.mem_cons_self (memberTokens ms false ++ rest)
            (show m.2.tokens.length ≤ fuel by omega)
          obtain ⟨ws, hws⟩ := ih (fun x hx => hms x (List.mem_cons_of_mem m hx)) false
            (Keyed.insert before m.1 w) (show (memberTokens ms false).length ≤ fuel by omega)
          refine ⟨ws, ?_⟩
          rw [memberTokens, List.append_assoc, List.cons_append, valueMembers,
            bind_eq_of_ok (nextName_tokens first _ _)]
          simp only
          rw [List.cons_append, List.append_assoc, bind_eq_of_ok rfl, bind_eq_of_ok hw]
          exact hws

theorem isTaken_of_plain (h : v.Plain room) : IsTaken room v := by
  induction h with
  | null | bool | count | text =>
      intro fuel rest hfuel
      cases fuel with
      | zero => cases hfuel
      | succ fuel => exact ⟨_, rfl⟩
  | @list room items _ ih =>
      intro fuel rest hfuel
      cases fuel with
      | zero => cases hfuel
      | succ fuel =>
          obtain ⟨ws, hws⟩ := exists_valueItems ih true rest (Nat.le_of_succ_le_succ hfuel)
          exact ⟨.list ws, bind_eq_of_ok hws⟩
  | @object room members _ ih =>
      intro fuel rest hfuel
      cases fuel with
      | zero => cases hfuel
      | succ fuel =>
          obtain ⟨ws, hws⟩ := exists_valueMembers ih true [] rest (Nat.le_of_succ_le_succ hfuel)
          exact ⟨.object ws, bind_eq_of_ok hws⟩

/-- **Held back**: the tokens of a value are held back as they are. -/
theorem reads_slice (h : v.Plain room) : Reads (slice room) v v.tokens := by
  intro rest
  have hfuel : v.tokens.length ≤ 2 * (v.tokens ++ rest).length + 2 := by
    rw [List.length_append]; omega
  obtain ⟨w, hw⟩ := isTaken_of_plain h rest hfuel
  have hvalue : value room (v.tokens ++ rest) = .ok (w, rest) := hw
  rw [slice, hvalue]
  simp

theorem Reads.whole (h : Reads r v a) : whole r v.tokens = .ok a := by
  have hr := h []
  rw [List.append_nil] at hr
  rw [Reader.whole, hr]

/-- **Read again**: tokens held back are read as the value they belong to. -/
theorem Reads.heldBack (h : Reads r v a) (ts : List Token) :
    heldBack r v.tokens ts = .ok (a, ts) := by
  rw [Reader.heldBack, h.whole]

/-- **An indented text is read as the value it was written from.** -/
theorem Reads.document_pretty (h : Reads r v a) (hv : v.Plain room) :
    document r v.pretty = .ok a := by
  rw [document, hv.scan_pretty, h.whole]

end Reader

end DesignSpace.Json
