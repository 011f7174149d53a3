/-
  Subject:   WHAT A READER GIVES. A property of all that a reader can read, put together from the
             properties of its parts. The numbers in the tokens of a text are counts, and whatever
             a reader leaves for the next one are tokens of the same text.

  * `Token.Counted`, `Token.counted_scan`: the tokens of any text;
  * `Reader.Gives`: a property of all that is read;
  * `Gives.bind`, `gives_list`, `Gives.object`, `Gives.record`: from the parts to the whole;
  * `Gives.document`: **what is read of a text has the property**.
-/
import DesignSpace.Json.Reader
import DesignSpace.Proofs.Attempt

namespace DesignSpace.Json

/-! ## 1. The tokens of a text -/

namespace Token

variable {t : Token} {ts : List Token} {cs rest : List Char}

/-- A token whose number, if it is a whole one, is a count. -/
def Counted : Token → Prop
  | number (.natural n) => n ≤ Count.limit
  | _ => True

theorem counted_ofBracket {c : Char} (h : ofBracket c = some t) : t.Counted := by
  unfold ofBracket at h
  split at h <;> cases h <;> trivial

theorem counted_ofSize (negative : Bool) (x : Float) : (ofSize negative x).Counted := by
  unfold ofSize
  split <;> trivial

theorem counted_ofNumeral (n : Numeral) : (ofNumeral n).Counted := by
  unfold ofNumeral
  have hcount : (gather 0 n.whole).1 ≤ Count.limit := gather_le_limit (Nat.zero_le _) _
  generalize gather 0 n.whole = g at hcount ⊢
  obtain ⟨k, left⟩ := g
  simp only
  split
  · split
    · exact hcount
    · split
      · trivial
      · exact counted_ofSize _ _
  · exact counted_ofSize _ _

theorem counted_ofPieces (ps : List Piece) : (ofPieces ps).Counted := by
  unfold ofPieces
  split <;> trivial

theorem counted_scanWord (h : scanWord cs = some (t, rest)) : t.Counted := by
  unfold scanWord at h
  split at h
  · obtain ⟨p, -, hp⟩ := Option.map_eq_some_iff.mp h
    cases hp
    exact counted_ofPieces _
  · cases h; trivial
  · cases h; trivial
  · cases h; trivial
  · obtain ⟨p, -, hp⟩ := Option.map_eq_some_iff.mp h
    cases hp
    exact counted_ofNumeral _

/-- **The whole numbers in a text are counts.** -/
theorem counted_scanFrom (fuel : Nat) (cs : List Char) : ∀ t ∈ scanFrom fuel cs, t.Counted := by
  induction fuel generalizing cs with
  | zero => exact fun t ht => absurd ht List.not_mem_nil
  | succ fuel ih =>
      cases cs with
      | nil => exact fun t ht => absurd ht List.not_mem_nil
      | cons c cs =>
          rw [scanFrom]
          split
          · exact ih cs
          · split
            · next hb => exact List.forall_mem_cons.mpr ⟨counted_ofBracket hb, ih cs⟩
            · split
              · next hw => exact List.forall_mem_cons.mpr ⟨counted_scanWord hw, ih _⟩
              · exact List.forall_mem_cons.mpr ⟨trivial, fun t ht => absurd ht List.not_mem_nil⟩

end Token

namespace Reader

variable {α β : Type} {r : Reader α} {P : α → Prop} {Q : β → Prop}

/-! ## 2. Steps -/

/-- **What a reader gives**: if the numbers in its tokens are counts, then what it reads has a
    property, and the numbers in the tokens left are counts too. -/
def Gives (r : Reader α) (P : α → Prop) : Prop :=
  ∀ ts a rest, (∀ t ∈ ts, t.Counted) → r ts = .ok (a, rest) → P a ∧ ∀ t ∈ rest, t.Counted

theorem gives_pure {a : α} (h : P a) : Gives (pure a) P := by
  intro ts b rest hts hb
  obtain ⟨rfl, rfl⟩ := Prod.mk.inj (Except.ok.inj hb)
  exact ⟨h, hts⟩

theorem Gives.bind {f : α → Reader β} (hr : Gives r P) (hf : ∀ a, P a → Gives (f a) Q) :
    Gives (r >>= f) Q := by
  intro ts b rest hts hb
  obtain ⟨⟨a, between⟩, ha, hb⟩ := Attempt.bind_eq_ok_iff.mp hb
  obtain ⟨hP, hbetween⟩ := hr ts a between hts ha
  exact hf a hP between b rest hbetween hb

theorem Gives.map {f : α → β} (hr : Gives r P) (hf : ∀ a, P a → Q (f a)) :
    Gives (do return f (← r)) Q :=
  hr.bind fun a ha => gives_pure (hf a ha)

theorem gives_mismatch : Gives (mismatch : Reader α) P := fun _ _ _ _ h => nomatch h

/-- A reader that leaves the end of its tokens leaves numbers that are counts. -/
theorem gives_of_suffix (h : ∀ ts a rest, r ts = .ok (a, rest) → rest <:+ ts) :
    Gives r fun _ => True :=
  fun ts a rest hts ha => ⟨trivial, fun t ht => hts t ((h ts a rest ha).subset ht)⟩

theorem gives_closeArray : Gives closeArray fun _ => True := by
  refine gives_of_suffix fun ts a rest h => ?_
  unfold closeArray at h
  split at h <;> cases h
  exact List.suffix_cons _ _

theorem gives_colon : Gives colon fun _ => True := by
  refine gives_of_suffix fun ts a rest h => ?_
  unfold colon at h
  split at h <;> cases h
  exact List.suffix_cons _ _

/-! ## 3. Simple shapes -/

theorem gives_text : Gives text fun _ => True := by
  refine gives_of_suffix fun ts a rest h => ?_
  unfold text at h
  split at h <;> cases h
  exact List.suffix_cons _ _

theorem gives_flag : Gives flag fun _ => True := by
  refine gives_of_suffix fun ts a rest h => ?_
  unfold flag at h
  split at h <;> cases h
  exact List.suffix_cons _ _

theorem gives_natural (top : Nat) : Gives (natural top) fun n => n ≤ top := by
  intro ts a rest hts h
  unfold natural at h
  split at h
  · split at h
    · next hn =>
        cases h
        exact ⟨hn, fun t ht => hts t (List.mem_cons_of_mem _ ht)⟩
    · cases h
  · cases h

theorem gives_optional (hr : Gives r P) : Gives (optional r) fun o => ∀ a, o = some a → P a := by
  intro ts o rest hts h
  unfold Reader.optional at h
  split at h
  · cases h
    exact ⟨fun a ha => (by cases ha), fun t ht => hts t (List.mem_cons_of_mem _ ht)⟩
  · have hsome : Gives (do return some (← r)) fun o => ∀ a, o = some a → P a :=
      hr.map fun a ha b hb => Option.some.inj hb ▸ ha
    exact hsome _ _ _ hts h

theorem gives_choice (named : String → Option α) (held : Bool) :
    Gives (choice named held) fun _ => True := by
  refine gives_of_suffix fun ts a rest h => ?_
  unfold choice at h
  split at h
  · split at h <;> cases h
    exact List.suffix_cons _ _
  · split at h
    · cases h
    · split at h
      · cases h
        exact ⟨[_, _, _, _, _], rfl⟩
      · cases h
      · split at h <;> cases h
        exact ⟨[_, _, _, _, _, _], rfl⟩
      · cases h
      · cases h
  · cases h

/-! ## 4. Lists and objects -/

theorem gives_moreItems (first : Bool) : Gives (moreItems first) fun _ => True := by
  refine gives_of_suffix fun ts a rest h => ?_
  unfold moreItems at h
  split at h
  · cases h
  · cases h
    exact List.suffix_rfl
  · split at h
    · cases h
      exact List.suffix_rfl
    · split at h <;> cases h
      exact List.suffix_cons _ _
  · split at h <;> cases h
    exact List.suffix_rfl

theorem gives_itemsFrom (hr : Gives r P) (fuel : Nat) (first : Bool) :
    Gives (itemsFrom r fuel first) fun as => ∀ a ∈ as, P a := by
  induction fuel generalizing first with
  | zero => exact fun _ _ _ _ h => nomatch h
  | succ fuel ih =>
      rw [Reader.itemsFrom]
      refine (gives_moreItems first).bind fun more _ => ?_
      split
      · refine hr.bind fun a ha => (ih false).map fun as has => ?_
        exact List.forall_mem_cons.mpr ⟨ha, has⟩
      · exact gives_pure fun a ha => absurd ha List.not_mem_nil

/-- **A list** holds what its items are. -/
theorem gives_list (hr : Gives r P) : Gives (list r) fun as => ∀ a ∈ as, P a := by
  intro ts as rest hts h
  unfold Reader.list at h
  split at h
  · have hitems : ∀ fuel, Gives (do
        let items ← itemsFrom r fuel true
        closeArray
        return items) fun as => ∀ a ∈ as, P a := fun fuel =>
      (gives_itemsFrom hr fuel true).bind fun as has =>
        gives_closeArray.bind fun _ _ => gives_pure has
    exact hitems _ _ _ _ (List.forall_mem_cons.mp hts).2 h
  · cases h

variable {fields : List (Field α)} {required : List String}
  {stray : String → Option (α → Reader α)} {blank : α}

theorem gives_nextName (first : Bool) : Gives (nextName first) fun _ => True := by
  refine gives_of_suffix fun ts a rest h => ?_
  unfold nextName at h
  split at h
  · cases h
    exact List.suffix_cons _ _
  · split at h <;> cases h
    exact List.suffix_cons _ _
  · split at h <;> cases h
    exact ⟨[_, _], rfl⟩
  · cases h

/-- What the fields keep, and the readers of other names, is kept by all members together. -/
theorem gives_membersFrom (hfields : ∀ f ∈ fields, ∀ a, P a → Gives (f.read a) P)
    (hstray : ∀ name, ∀ read ∈ stray name, ∀ a, P a → Gives (read a) P) (fuel : Nat) (first : Bool)
    (met : List String) {a : α} (ha : P a) :
    Gives (membersFrom fields stray fuel first met a) fun p => P p.2 := by
  induction fuel generalizing first met a with
  | zero => exact fun _ _ _ _ h => nomatch h
  | succ fuel ih =>
      rw [membersFrom]
      refine (gives_nextName first).bind fun name? _ => ?_
      split
      · exact gives_pure ha
      · split
        · next hf =>
            split
            · exact gives_mismatch
            · refine gives_colon.bind fun _ _ => ?_
              exact (hfields _ (List.mem_of_find?_eq_some hf) a ha).bind fun b hb => ih false _ hb
        · split
          · exact gives_mismatch
          · next hs =>
              refine gives_colon.bind fun _ _ => ?_
              exact (hstray _ _ hs a ha).bind fun b hb => ih false _ hb

theorem gives_complete (met : List String) {a : α} (ha : P a) :
    Gives (complete required met a) P := by
  unfold complete
  split
  · exact gives_pure ha
  · exact gives_mismatch

/-- **An object** has what its blank form has, if all members keep it. -/
theorem gives_object (hblank : P blank) (hfields : ∀ f ∈ fields, ∀ a, P a → Gives (f.read a) P)
    (hstray : ∀ name, ∀ read ∈ stray name, ∀ a, P a → Gives (read a) P) :
    Gives (object fields required stray blank) P := by
  intro ts a rest hts h
  unfold object at h
  split at h
  · refine ((gives_membersFrom hfields hstray _ true [] hblank).bind fun p hp => ?_) _ _ _
      (List.forall_mem_cons.mp hts).2 h
    exact gives_complete p.1 hp
  · cases h

theorem gives_placesFrom (hfields : ∀ f ∈ fields, ∀ a, P a → Gives (f.read a) P) (first : Bool)
    (met : List String) {a : α} (ha : P a) :
    Gives (placesFrom fields first met a) fun p => P p.2 := by
  induction fields generalizing first met a with
  | nil => exact gives_pure ha
  | cons f fields ih =>
      rw [placesFrom]
      refine (gives_moreItems first).bind fun more _ => ?_
      split
      · refine (hfields f List.mem_cons_self a ha).bind fun b hb => ?_
        exact ih (fun g hg => hfields g (List.mem_cons_of_mem f hg)) false _ hb
      · exact gives_pure ha

/-- **A record** has what its blank form has, if all members keep it. -/
theorem gives_record (hblank : P blank) (hfields : ∀ f ∈ fields, ∀ a, P a → Gives (f.read a) P)
    (hstray : ∀ name, ∀ read ∈ stray name, ∀ a, P a → Gives (read a) P) :
    Gives (record fields required stray blank) P := by
  intro ts a rest hts h
  unfold record at h
  split at h
  · refine ((gives_placesFrom hfields true [] hblank).bind fun p hp => ?_) _ _ _
      (List.forall_mem_cons.mp hts).2 h
    exact (gives_complete p.1 hp).bind fun b hb => gives_closeArray.bind fun _ _ => gives_pure hb
  · exact gives_object hblank hfields hstray _ _ _ hts h

/-! ## 5. Any value -/

theorem gives_skipFrom_succ {fuel : Nat} (hitems : Gives (skipItems fuel true) fun _ => True)
    (hmembers : Gives (skipMembers fuel true) fun _ => True) :
    Gives (skipFrom (fuel + 1)) fun _ => True := by
  intro ts a rest hts h
  simp only [skipFrom] at h
  split at h
  case h_1 => exact hitems _ _ _ (List.forall_mem_cons.mp hts).2 h
  case h_2 => exact hmembers _ _ _ (List.forall_mem_cons.mp hts).2 h
  case h_9 => cases h
  all_goals
    cases h
    exact ⟨trivial, (List.forall_mem_cons.mp hts).2⟩

theorem gives_skipItems_succ {fuel : Nat} (hone : Gives (skipFrom fuel) fun _ => True)
    (hmore : Gives (skipItems fuel false) fun _ => True) (first : Bool) :
    Gives (skipItems (fuel + 1) first) fun _ => True := by
  rw [skipItems]
  refine (gives_moreItems first).bind fun more _ => ?_
  split
  · exact hone.bind fun _ _ => hmore
  · exact gives_closeArray

theorem gives_skipMembers_succ {fuel : Nat} (hone : Gives (skipFrom fuel) fun _ => True)
    (hmore : Gives (skipMembers fuel false) fun _ => True) (first : Bool) :
    Gives (skipMembers (fuel + 1) first) fun _ => True := by
  have hname : Gives (do
      colon
      skipFrom fuel
      skipMembers fuel false) fun _ => True :=
    gives_colon.bind fun _ _ => hone.bind fun _ _ => hmore
  intro ts a rest hts h
  simp only [skipMembers] at h
  split at h
  case h_1 =>
    cases h
    exact ⟨trivial, (List.forall_mem_cons.mp hts).2⟩
  case h_6 => cases h
  all_goals exact hname _ _ _ (fun t ht => hts t (by simp [ht])) h

/-- What is passed over leaves tokens of the same text. -/
theorem gives_skipFrom (fuel : Nat) : Gives (skipFrom fuel) (fun _ => True) ∧
    (∀ first, Gives (skipItems fuel first) fun _ => True) ∧
      ∀ first, Gives (skipMembers fuel first) fun _ => True := by
  induction fuel with
  | zero =>
      refine ⟨?_, fun first => ?_, fun first => ?_⟩ <;> exact fun _ _ _ _ h => nomatch h
  | succ fuel ih =>
      obtain ⟨hone, hitems, hmembers⟩ := ih
      exact ⟨gives_skipFrom_succ (hitems true) (hmembers true),
        gives_skipItems_succ hone (hitems false), gives_skipMembers_succ hone (hmembers false)⟩

theorem gives_skip : Gives skip fun _ => True :=
  fun ts a rest hts h => (gives_skipFrom _).1 ts a rest hts h

theorem gives_valueFrom_succ {fuel : Nat} (room : Nat)
    (hitems : ∀ room, Gives (valueItems fuel room true) fun _ => True)
    (hmembers : ∀ room, Gives (valueMembers fuel room true []) fun _ => True) :
    Gives (valueFrom (fuel + 1) room) fun _ => True := by
  intro ts a rest hts h
  simp only [valueFrom] at h
  split at h
  case h_1 =>
    cases room with
    | zero => cases h
    | succ room =>
        have hlist : Gives (do return Value.list (← valueItems fuel room true)) fun _ => True :=
          (hitems room).map fun _ _ => trivial
        exact hlist _ _ _ (List.forall_mem_cons.mp hts).2 h
  case h_2 =>
    cases room with
    | zero => cases h
    | succ room =>
        have hobject : Gives (do return Value.object (← valueMembers fuel room true []))
            fun _ => True :=
          (hmembers room).map fun _ _ => trivial
        exact hobject _ _ _ (List.forall_mem_cons.mp hts).2 h
  case h_7 => cases h
  all_goals
    cases h
    exact ⟨trivial, (List.forall_mem_cons.mp hts).2⟩

theorem gives_valueItems_succ {fuel room : Nat} (hone : Gives (valueFrom fuel room) fun _ => True)
    (hmore : Gives (valueItems fuel room false) fun _ => True) (first : Bool) :
    Gives (valueItems (fuel + 1) room first) fun _ => True := by
  rw [valueItems]
  refine (gives_moreItems first).bind fun more _ => ?_
  split
  · exact hone.bind fun _ _ => hmore.map fun _ _ => trivial
  · exact gives_closeArray.map fun _ _ => trivial

theorem gives_valueMembers_succ {fuel room : Nat}
    (hone : Gives (valueFrom fuel room) fun _ => True)
    (hmore : ∀ before, Gives (valueMembers fuel room false before) fun _ => True) (first : Bool)
    (before : List (String × Value)) :
    Gives (valueMembers (fuel + 1) room first before) fun _ => True := by
  rw [valueMembers]
  refine (gives_nextName first).bind fun name? _ => ?_
  split
  · exact gives_pure trivial
  · exact gives_colon.bind fun _ _ => hone.bind fun _ _ => hmore _

/-- What is read as any value leaves tokens of the same text. -/
theorem gives_valueFrom (fuel : Nat) : ∀ room, Gives (valueFrom fuel room) (fun _ => True) ∧
    (∀ first, Gives (valueItems fuel room first) fun _ => True) ∧
      ∀ first before, Gives (valueMembers fuel room first before) fun _ => True := by
  induction fuel with
  | zero =>
      refine fun room => ⟨?_, fun first => ?_, fun first before => ?_⟩ <;>
        exact fun _ _ _ _ h => nomatch h
  | succ fuel ih =>
      intro room
      obtain ⟨hone, hitems, hmembers⟩ := ih room
      exact ⟨gives_valueFrom_succ room (fun k => (ih k).2.1 true) fun k => (ih k).2.2 true [],
        gives_valueItems_succ hone (hitems false), gives_valueMembers_succ hone (hmembers false)⟩

/-- **Held back** are tokens of the text itself. -/
theorem gives_slice (room : Nat) : Gives (slice room) fun held => ∀ t ∈ held, t.Counted := by
  intro ts held rest hts h
  unfold slice at h
  split at h
  · next hvalue =>
      cases h
      exact ⟨fun t ht => hts t (List.mem_of_mem_take ht),
        ((gives_valueFrom _ room).1 ts _ _ hts hvalue).2⟩
  · cases h

/-! ## 6. Documents -/

theorem Gives.whole (hr : Gives r P) {ts : List Token} {a : α} (hts : ∀ t ∈ ts, t.Counted)
    (h : whole r ts = .ok a) : P a := by
  unfold Reader.whole at h
  split at h
  · next ha =>
      cases h
      exact (hr ts _ _ hts ha).1
  · cases h
  · cases h

theorem Gives.heldBack (hr : Gives r P) {ts : List Token} (hts : ∀ t ∈ ts, t.Counted) :
    Gives (heldBack r ts) P := by
  intro rest a left hrest h
  unfold Reader.heldBack at h
  split at h
  · next ha =>
      cases h
      exact ⟨hr.whole hts ha, hrest⟩
  · cases h

/-- **What is read of a text has the property**, whatever the text is. -/
theorem Gives.document (hr : Gives r P) {s : String} {a : α} (h : document r s = .ok a) : P a :=
  hr.whole (Token.counted_scanFrom _ _) h

end Reader

end DesignSpace.Json
