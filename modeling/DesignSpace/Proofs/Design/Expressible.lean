/-
  Subject:   WHAT A TEXT OF A DESIGN CAN HOLD. Numbers are counts, widths have thirty-two bits, and
             subscripts are those of their own texts; all else may be as it is. The parts of a
             listing are read back if they are such, and whatever is read is such.

  * `Operation.Expressible`, …, `Listing.Expressible`: what a text can hold, part by part;
  * `Operation.reads`, …, `Listing.reads`: **each part is read back as it was written**;
  * `Operation.gives`, …, `Listing.gives`: **each part that is read can be written**.
-/
import DesignSpace.Design.Text
import DesignSpace.Proofs.Json.Gives
import DesignSpace.Proofs.Json.ReadBack
import DesignSpace.Proofs.Subscript

namespace DesignSpace

open Json (Value Token Reader)
open Json.Value (Plain)
open Json.Reader

/-! ## 1. Passing over -/

theorem gives_skipStray {α : Type} {P : α → Prop} (name : String) :
    ∀ read ∈ skipStray name, ∀ a, P a → Gives (read a) P := by
  intro read hread a ha
  obtain rfl := Option.some.inj hread
  exact gives_skip.bind fun _ _ => gives_pure ha

/-! ## 2. Blocks -/

namespace Operation

/-- An operation that a text can hold. -/
def Expressible (o : Operation) : Prop := o.bits ≤ widthLimit

variable {o : Operation} {k : Nat}

theorem plain_value (h : o.Expressible) : o.value.Plain (k + 1) := by
  have hbits : Plain k (.ofNat o.bits) := .count (Nat.le_trans h (by decide))
  exact .object (List.forall_mem_cons.mpr ⟨.text _, List.forall_mem_singleton.mpr hbits⟩)

theorem reads (h : o.Expressible) : Reads reader o.value o := by
  have hkind := reads_choice (OpKind.ofName?_name o.kind) true
  have hbits := reads_natural h
  exact Fills.record (.field rfl (by decide) (hkind.map _)
    (.field rfl (by decide) (hbits.map _) .nil)) (by decide)

theorem gives : Gives reader Expressible := by
  refine gives_record (by decide : 32 ≤ widthLimit) ?_ gives_skipStray
  refine List.forall_mem_cons.mpr ⟨fun o ho => ?_, List.forall_mem_singleton.mpr fun o _ => ?_⟩
  · exact (gives_choice _ _).map fun _ _ => ho
  · exact (gives_natural widthLimit).map fun _ hn => hn

end Operation

namespace Subscript

variable {x : Subscript}

/-- A subscript that a text can hold. -/
def Expressible (x : Subscript) : Prop := parse? x.text = some x

theorem reads (h : x.Expressible) : Reads reader (.text x.text) x := by
  intro rest
  refine (bind_eq_of_ok (reads_text x.text rest)).trans ?_
  rw [h]
  rfl

theorem gives : Gives reader Expressible := by
  refine gives_text.bind fun s _ => ?_
  split
  · next hx => exact gives_pure (parse?_text hx)
  · exact gives_mismatch

end Subscript

namespace AccessKind

theorem ofName?_name (k : AccessKind) : ofName? k.name = some k := by cases k <;> decide

end AccessKind

namespace Access

/-- An access that a text can hold. -/
def Expressible (a : Access) : Prop := ∀ x ∈ a.index, x.Expressible

variable {a : Access} {k : Nat}

theorem plain_value (a : Access) : a.value.Plain (k + 2) := by
  have hindex := Plain.map fun (x : Subscript) (_ : x ∈ a.index) => @Plain.text k x.text
  exact .object (List.forall_mem_cons.mpr ⟨.text _,
    List.forall_mem_cons.mpr ⟨.text _, List.forall_mem_singleton.mpr hindex⟩⟩)

theorem reads (h : a.Expressible) : Reads reader a.value a := by
  have hkind := reads_choice (AccessKind.ofName?_name a.kind) true
  have hindex := reads_list fun x hx => Subscript.reads (h x hx)
  exact Fills.record (.field rfl (by decide) ((reads_text a.array).map _)
    (.field rfl (by decide) (hkind.map _)
      (.field rfl (by decide) (hindex.map _) .nil))) (by decide)

theorem gives : Gives reader Expressible := by
  refine gives_record (fun x hx => absurd hx List.not_mem_nil) ?_ gives_skipStray
  refine List.forall_mem_cons.mpr ⟨fun a ha => ?_, List.forall_mem_cons.mpr ⟨fun a ha => ?_,
    List.forall_mem_singleton.mpr fun a _ => ?_⟩⟩
  · exact gives_text.map fun _ _ => ha
  · exact (gives_choice _ _).map fun _ _ => ha
  · exact (gives_list Subscript.gives).map fun _ hx => hx

end Access

namespace Block

/-- A block that a text can hold. -/
structure Expressible (b : Block) : Prop where
  ops : ∀ o ∈ b.ops, o.Expressible
  accesses : ∀ a ∈ b.accesses, a.Expressible

variable {b : Block} {k : Nat}

theorem plain_members (h : b.Expressible) : ∀ m ∈ b.members, m.2.Plain (k + 3) := by
  have hops := Plain.map fun o ho => @Operation.plain_value o (k + 1) (h.ops o ho)
  have haccesses := Plain.map fun a (_ : a ∈ b.accesses) => @Access.plain_value k a
  exact List.forall_mem_cons.mpr ⟨hops, List.forall_mem_singleton.mpr haccesses⟩

theorem reads (h : b.Expressible) : Reads reader (.object b.members) b := by
  have hops := reads_list fun o ho => Operation.reads (h.ops o ho)
  have haccesses := reads_list fun a ha => Access.reads (h.accesses a ha)
  exact Fills.record (.field rfl (by decide) (hops.map _)
    (.field rfl (by decide) (haccesses.map _) .nil)) (by decide)

theorem gives : Gives reader Expressible := by
  have hblank : Expressible {} :=
    ⟨fun o ho => absurd ho List.not_mem_nil, fun a ha => absurd ha List.not_mem_nil⟩
  refine gives_record hblank ?_ gives_skipStray
  refine List.forall_mem_cons.mpr ⟨fun b hb => ?_, List.forall_mem_singleton.mpr fun b hb => ?_⟩
  · exact (gives_list Operation.gives).map fun _ hops => ⟨hops, hb.accesses⟩
  · exact (gives_list Access.gives).map fun _ haccesses => ⟨hb.ops, haccesses⟩

end Block

/-! ## 3. Loops and functions -/

namespace Trip

/-- A trip count that a text can hold. -/
def Expressible (t : Trip) : Prop := ∀ n, t = static n → n ≤ Count.limit

variable {t : Trip} {k : Nat}

theorem plain_value (h : t.Expressible) : t.value.Plain k := by
  cases t with
  | static n => exact .count (h n rfl)
  | symbolic s => exact .text s

theorem reads (t : Trip) : Reads reader t.value t := by
  cases t <;> exact fun _ => rfl

theorem gives : Gives reader Expressible := by
  intro ts t rest hts h
  unfold reader at h
  split at h
  · cases h
    obtain ⟨hn, hrest⟩ := List.forall_mem_cons.mp hts
    exact ⟨fun m hm => Trip.static.inj hm ▸ hn, hrest⟩
  · cases h
    exact ⟨fun m hm => (by cases hm), (List.forall_mem_cons.mp hts).2⟩
  · cases h

end Trip

namespace LoopDirectives

/-- Directives of a loop that a text can hold. -/
structure Expressible (d : LoopDirectives) : Prop where
  unroll : d.unroll ≤ Count.limit
  tile : ∀ t, d.tile = some t → t ≤ Count.limit

variable {d : LoopDirectives} {k : Nat}

theorem plain_value (h : d.Expressible) : d.value.Plain (k + 1) := by
  obtain ⟨pipeline, unroll, tile⟩ := d
  refine .object (List.forall_mem_cons.mpr ⟨.bool _,
    List.forall_mem_cons.mpr ⟨.count h.unroll, ?_⟩⟩)
  cases tile with
  | none => exact List.forall_mem_nil _
  | some t => exact List.forall_mem_singleton.mpr (.count (h.tile t rfl))

theorem reads (h : d.Expressible) : Reads reader d.value d := by
  obtain ⟨pipeline, unroll, tile⟩ := d
  have hunroll := reads_natural h.unroll
  cases tile with
  | none =>
      exact Fills.record (.field rfl (by decide) ((reads_flag pipeline).map _)
        (.field rfl (by decide) (hunroll.map _) .nil)) (by decide)
  | some t =>
      have htile := (reads_natural (h.tile t rfl)).some fun hnull => (by cases hnull)
      exact Fills.record (.field rfl (by decide) ((reads_flag pipeline).map _)
        (.field rfl (by decide) (hunroll.map _)
          (.field rfl (by decide) (htile.map _) .nil))) (by decide)

theorem gives : Gives reader Expressible := by
  have hblank : Expressible {} := ⟨by decide, fun t ht => (by cases ht)⟩
  refine gives_record hblank ?_ gives_skipStray
  refine List.forall_mem_cons.mpr ⟨fun d hd => ?_, List.forall_mem_cons.mpr ⟨fun d hd => ?_,
    List.forall_mem_singleton.mpr fun d hd => ?_⟩⟩
  · exact gives_flag.map fun _ _ => ⟨hd.unroll, hd.tile⟩
  · exact (gives_natural Count.limit).map fun _ hn => ⟨hn, hd.tile⟩
  · exact (gives_optional (gives_natural Count.limit)).map fun _ ht => ⟨hd.unroll, ht⟩

end LoopDirectives

namespace Loop

/-- A loop that a text can hold. -/
structure Expressible (l : Loop) : Prop where
  trip : l.trip.Expressible
  directives : l.directives.Expressible

variable {l : Loop} {k : Nat}

theorem plain_members (h : l.Expressible) : ∀ m ∈ l.members, m.2.Plain (k + 1) :=
  List.forall_mem_cons.mpr ⟨.text _, List.forall_mem_cons.mpr ⟨Trip.plain_value h.trip,
    List.forall_mem_singleton.mpr (LoopDirectives.plain_value h.directives)⟩⟩

theorem reads (h : l.Expressible) : Reads reader (.object l.members) l :=
  Fills.record (.field rfl (by decide) ((reads_text l.iv).map _)
    (.field rfl (by decide) ((Trip.reads l.trip).map _)
      (.field rfl (by decide) ((LoopDirectives.reads h.directives).map _) .nil))) (by decide)

theorem gives : Gives reader Expressible := by
  have hblank : Expressible ⟨"", .static 0, {}⟩ :=
    ⟨fun n hn => Trip.static.inj hn ▸ Nat.zero_le _, by decide, fun t ht => (by cases ht)⟩
  refine gives_record hblank ?_ gives_skipStray
  refine List.forall_mem_cons.mpr ⟨fun l hl => ?_, List.forall_mem_cons.mpr ⟨fun l hl => ?_,
    List.forall_mem_singleton.mpr fun l hl => ?_⟩⟩
  · exact gives_text.map fun _ _ => ⟨hl.trip, hl.directives⟩
  · exact Trip.gives.map fun _ ht => ⟨ht, hl.directives⟩
  · exact LoopDirectives.gives.map fun _ hd => ⟨hl.trip, hd⟩

end Loop

namespace Func

/-- A function that a text can hold. -/
def Expressible (f : Func) : Prop := f.directives.dataflow ≤ Count.limit

variable {f : Func} {k : Nat}

theorem plain_directives {d : FuncDirectives} (h : d.dataflow ≤ Count.limit) :
    d.value.Plain (k + 1) := by
  obtain ⟨dataflow, balance⟩ := d
  refine .object (List.forall_mem_cons.mpr ⟨.count h, ?_⟩)
  cases balance with
  | false => exact List.forall_mem_nil _
  | true => exact List.forall_mem_singleton.mpr (.bool _)

theorem reads_directives {d : FuncDirectives} (h : d.dataflow ≤ Count.limit) :
    Reads FuncDirectives.reader d.value d := by
  obtain ⟨dataflow, balance⟩ := d
  have hdataflow := reads_natural h
  cases balance with
  | false =>
      exact Fills.record (.field rfl (by decide) (hdataflow.map _) .nil) (by decide)
  | true =>
      exact Fills.record (.field rfl (by decide) (hdataflow.map _)
        (.field rfl (by decide) ((reads_flag true).map _) .nil)) (by decide)

theorem gives_directives :
    Gives FuncDirectives.reader fun d => d.dataflow ≤ Count.limit := by
  refine gives_record (by decide) ?_ gives_skipStray
  refine List.forall_mem_cons.mpr ⟨fun d _ => ?_, List.forall_mem_singleton.mpr fun d hd => ?_⟩
  · exact (gives_natural Count.limit).map fun _ hn => hn
  · exact gives_flag.map fun _ _ => hd

theorem plain_members (h : f.Expressible) : ∀ m ∈ f.members, m.2.Plain (k + 1) :=
  List.forall_mem_cons.mpr ⟨.text _, List.forall_mem_singleton.mpr (plain_directives h)⟩

theorem reads (h : f.Expressible) : Reads reader (.object f.members) f :=
  Fills.record (.field rfl (by decide) ((reads_text f.name).map _)
    (.field rfl (by decide) ((reads_directives h).map _) .nil)) (by decide)

theorem gives : Gives reader Expressible := by
  refine gives_record (by decide : 1 ≤ Count.limit) ?_ gives_skipStray
  refine List.forall_mem_cons.mpr ⟨fun f hf => ?_, List.forall_mem_singleton.mpr fun f _ => ?_⟩
  · exact gives_text.map fun _ _ => hf
  · exact gives_directives.map fun _ hd => hd

end Func

/-! ## 4. Regions -/

namespace Kind

/-- What a region may be in a text. -/
def Expressible : Kind → Prop
  | block b => b.Expressible
  | loop l => l.Expressible
  | func f => f.Expressible
  | dataflow => True

variable {kind : Kind} {k : Nat}

theorem plain_members (h : kind.Expressible) : ∀ m ∈ kind.members, m.2.Plain (k + 3) := by
  cases kind with
  | block b => exact Block.plain_members h
  | loop l => exact Loop.plain_members h
  | func f => exact Func.plain_members h
  | dataflow => exact List.forall_mem_nil _

/-- **The members of a kind** are read back by the reader that its name chooses. -/
theorem exists_reader (h : kind.Expressible) :
    ∃ r, readerOf? [.text kind.name] = some r ∧ Reads r (.object kind.members) kind := by
  cases kind with
  | block b => exact ⟨_, rfl, (Block.reads h).map _⟩
  | loop l => exact ⟨_, rfl, (Loop.reads h).map _⟩
  | func f => exact ⟨_, rfl, (Func.reads h).map _⟩
  | dataflow => exact ⟨_, rfl, fun _ => rfl⟩

theorem gives_named {s : String} {r : Reader Kind} (h : readerOf?.named s = some r) :
    Gives r Expressible := by
  unfold readerOf?.named at h
  split at h
  · obtain rfl := Option.some.inj h
    exact Block.gives.map fun _ hb => hb
  split at h
  · obtain rfl := Option.some.inj h
    exact Loop.gives.map fun _ hl => hl
  split at h
  · obtain rfl := Option.some.inj h
    exact Func.gives.map fun _ hf => hf
  split at h
  · obtain rfl := Option.some.inj h
    exact gives_skip.bind fun _ _ => gives_pure trivial
  · cases h

theorem gives_readerOf? {ts : List Token} {r : Reader Kind} (h : readerOf? ts = some r) :
    Gives r Expressible := by
  unfold readerOf? at h
  split at h
  · exact gives_named h
  · obtain ⟨s, -, hs⟩ := Option.bind_eq_some_iff.mp h
    exact gives_named hs
  · cases h

/-- The members of a kind are not named as those that every record has. -/
theorem names_members (kind : Kind) : ∀ m ∈ kind.members,
    m.1 ∉ ["id", "parent", "composition"] ∧ m.1 ≠ "kind" := by
  have hfree : ∀ name ∈ ["ops", "accesses", "iv", "trip", "directives", "name"],
      name ∉ ["id", "parent", "composition"] ∧ name ≠ "kind" := by decide
  have hnames : kind.members.map Prod.fst ⊆
      ["ops", "accesses", "iv", "trip", "directives", "name"] := by
    cases kind <;> simp [members, Block.members, Loop.members, Func.members]
  exact fun m hm => hfree m.1 (hnames (List.mem_map_of_mem hm))

end Kind

namespace Composition

theorem ofName?_name (c : Composition) : ofName? c.name = some c := by cases c <;> decide

end Composition

namespace Record

variable {r : Record} {k : Nat} {ms : List (String × Value)}

/-- A record that a text can hold. -/
structure Expressible (r : Record) : Prop where
  id : r.id ≤ Count.limit
  parent : ∀ p, r.parent = some p → p ≤ Count.limit
  kind : r.region.kind.Expressible

theorem plain_value (h : r.Expressible) : r.value.Plain (k + 4) := by
  obtain ⟨⟨id, kind, composition⟩, parent⟩ := r
  have hkind : ∀ m ∈ ("kind", Value.text kind.name) :: kind.members, m.2.Plain (k + 3) :=
    List.forall_mem_cons.mpr ⟨.text _, Kind.plain_members h.kind⟩
  refine .object (List.forall_mem_cons.mpr ⟨.count h.id, List.forall_mem_cons.mpr ⟨?_, ?_⟩⟩)
  · cases parent with
    | none => exact .null
    | some p => exact .count (h.parent p rfl)
  · cases composition with
    | none => exact hkind
    | some c => exact List.forall_mem_cons.mpr ⟨.text _, hkind⟩

/-! ### Members held back -/

/-- Members held back, as tokens. -/
def heldOf (ms : List (String × Value)) : List (String × List Token) :=
  ms.map fun m => (m.1, m.2.tokens)

/-- **Members of any names** are held back in their order. -/
theorem fills_held {fields : List (Json.Reader.Field Draft)} {names : List String}
    (hfields : fields.map Json.Reader.Field.name = names) (hms : ∀ m ∈ ms, m.1 ∉ names)
    (hplain : ∀ m ∈ ms, m.2.Plain (Json.Reader.depth - 3)) (met : List String) (d : Draft) :
    Fills fields (fun name => some fun d => do
        return { d with
          held := d.held ++ [(name, ← Json.Reader.slice (Json.Reader.depth - 3))] })
      ms met d met { d with held := d.held ++ heldOf ms } := by
  induction ms generalizing d with
  | nil => rw [heldOf, List.map_nil, List.append_nil]; exact .nil
  | cons m ms ih =>
      obtain ⟨hm, hrest⟩ := List.forall_mem_cons.mp hms
      obtain ⟨hv, hvs⟩ := List.forall_mem_cons.mp hplain
      have hnone : fields.find? (fun f => f.name = m.1) = none := by
        refine List.find?_eq_none.mpr fun f hf hname => hm ?_
        rw [← of_decide_eq_true hname, ← hfields]
        exact List.mem_map_of_mem hf
      refine .stray hnone rfl ((reads_slice hv).map _) ?_
      have hall := ih hrest hvs { d with held := d.held ++ [(m.1, m.2.tokens)] }
      rwa [List.append_assoc] at hall

/-- What is held back is put together as the object it was taken from. -/
theorem rejoin_heldOf (ms : List (String × Value)) :
    rejoin (heldOf ms) = (Value.object ms).tokens := by
  have hmore : ∀ (m : String × Value) ms,
      List.intercalate [.comma] ((heldOf (m :: ms)).map fun m => Token.text m.1 :: .colon :: m.2) ++
        [.closeObject] =
      Token.text m.1 :: .colon :: (m.2.tokens ++ Json.memberTokens ms false) := by
    intro m ms
    induction ms generalizing m with
    | nil => simp [heldOf, Json.memberTokens]
    | cons n ms ih =>
        have hn := ih n
        simp only [heldOf, List.map_cons] at hn ⊢
        rw [List.intercalate_cons_cons, List.append_assoc, hn]
        simp [Json.memberTokens, Token.lead]
  cases ms with
  | nil => rfl
  | cons m ms => exact congrArg (Token.openObject :: ·) (hmore m ms)

/-- **A record on the way** holds all but the kind, whose members are held back. -/
theorem reads_draft (h : r.Expressible) : Reads draftReader r.value
    ⟨r.id, r.parent, r.region.composition,
      heldOf (("kind", .text r.region.kind.name) :: r.region.kind.members)⟩ := by
  obtain ⟨⟨id, kind, composition⟩, parent⟩ := r
  have hid : Reads Json.Reader.count (.ofNat id) id := reads_natural h.id
  have hparent : Reads (Json.Reader.optional Json.Reader.count)
      (parent.elim Value.null Value.ofNat) parent := by
    cases parent with
    | none => exact reads_none
    | some p => exact (reads_natural (h.parent p rfl)).some fun hnull => (by cases hnull)
  have hnames : ∀ m ∈ ("kind", Value.text kind.name) :: kind.members,
      m.1 ∉ ["id", "parent", "composition"] := by
    refine List.forall_mem_cons.mpr ⟨?_, fun m hm => (kind.names_members m hm).1⟩
    exact (by decide : "kind" ∉ ["id", "parent", "composition"])
  have hplain : ∀ m ∈ ("kind", Value.text kind.name) :: kind.members,
      m.2.Plain (Json.Reader.depth - 3) :=
    List.forall_mem_cons.mpr ⟨.text _, Kind.plain_members h.kind⟩
  cases composition with
  | none =>
      have hvalue : value ⟨⟨id, kind, none⟩, parent⟩ = .object (("id", .ofNat id) ::
          ("parent", parent.elim .null .ofNat) :: ("kind", .text kind.name) :: kind.members) := by
        cases parent <;> rfl
      rw [hvalue]
      exact Fills.object (.field rfl (by decide) (hid.map fun i => (⟨i, none, none, []⟩ : Draft))
        (.field rfl (by decide) (hparent.map fun p => (⟨id, p, none, []⟩ : Draft))
          (fills_held rfl hnames hplain _ ⟨id, parent, none, []⟩))) (by decide)
  | some c =>
      have hvalue : value ⟨⟨id, kind, some c⟩, parent⟩ = .object (("id", .ofNat id) ::
          ("parent", parent.elim .null .ofNat) :: ("composition", .text c.name) ::
            ("kind", .text kind.name) :: kind.members) := by
        cases parent <;> rfl
      have hc := (reads_choice (Composition.ofName?_name c) false).some fun hnull => by cases hnull
      rw [hvalue]
      exact Fills.object (.field rfl (by decide) (hid.map fun i => (⟨i, none, none, []⟩ : Draft))
        (.field rfl (by decide) (hparent.map fun p => (⟨id, p, none, []⟩ : Draft))
          (.field rfl (by decide) (hc.map fun c => (⟨id, parent, c, []⟩ : Draft))
            (fills_held rfl hnames hplain _ ⟨id, parent, some c, []⟩)))) (by decide)

/-- The kind stands among the members held back, and all others are those of the kind. -/
theorem filter_heldOf (kind : Kind) :
    ((heldOf (("kind", .text kind.name) :: kind.members)).filter fun m => m.1 = "kind") =
        [("kind", [.text kind.name])] ∧
      ((heldOf (("kind", .text kind.name) :: kind.members)).filter fun m => m.1 ≠ "kind") =
        heldOf kind.members := by
  have hother : ∀ m ∈ heldOf kind.members, m.1 ≠ "kind" := by
    intro m hm
    obtain ⟨n, hn, rfl⟩ := List.mem_map.mp hm
    exact (kind.names_members n hn).2
  have hheld : heldOf (("kind", .text kind.name) :: kind.members) =
      ("kind", [.text kind.name]) :: heldOf kind.members := rfl
  rw [hheld, List.filter_cons_of_pos (by simp), List.filter_cons_of_neg (by simp),
    List.filter_eq_nil_iff.mpr fun m hm => by simpa using hother m hm,
    List.filter_eq_self.mpr fun m hm => by simpa using hother m hm]
  exact ⟨rfl, rfl⟩

/-- **A record** is read back. -/
theorem reads (h : r.Expressible) : Reads reader r.value r := by
  intro rest
  obtain ⟨read, hreader, hread⟩ := Kind.exists_reader h.kind
  obtain ⟨htag, hmembers⟩ := filter_heldOf r.region.kind
  refine (bind_eq_of_ok (reads_draft h rest)).trans ?_
  simp only [htag, hmembers, hreader, rejoin_heldOf]
  exact bind_eq_of_ok (hread.heldBack rest)

/-- A record on the way that is as a text can hold it. -/
structure Draft.Expressible (d : Draft) : Prop where
  id : d.id ≤ Count.limit
  parent : ∀ p, d.parent = some p → p ≤ Count.limit
  held : ∀ m ∈ d.held, ∀ t ∈ m.2, t.Counted

theorem gives_draft : Gives draftReader Draft.Expressible := by
  have hblank : Draft.Expressible {} :=
    ⟨Nat.zero_le _, fun p hp => (by cases hp), List.forall_mem_nil _⟩
  refine gives_object hblank ?_ fun name read hread d hd => ?_
  · refine List.forall_mem_cons.mpr ⟨fun d hd => ?_, List.forall_mem_cons.mpr ⟨fun d hd => ?_,
      List.forall_mem_singleton.mpr fun d hd => ?_⟩⟩
    · exact (gives_natural Count.limit).map fun _ hn => ⟨hn, hd.parent, hd.held⟩
    · exact (gives_optional (gives_natural Count.limit)).map fun _ hp => ⟨hd.id, hp, hd.held⟩
    · exact (gives_optional (gives_choice _ _)).map fun _ _ => ⟨hd.id, hd.parent, hd.held⟩
  · obtain rfl := Option.some.inj hread
    refine (gives_slice _).map fun ts hts => ⟨hd.id, hd.parent, fun m hm => ?_⟩
    rcases List.mem_append.mp hm with hm | hm
    · exact hd.held m hm
    · obtain rfl := List.mem_singleton.mp hm
      exact hts

theorem mem_intercalate {t : Token} {between : List Token} {parts : List (List Token)}
    (h : t ∈ List.intercalate between parts) : t ∈ between ∨ ∃ ts ∈ parts, t ∈ ts := by
  induction parts with
  | nil => exact absurd h List.not_mem_nil
  | cons ts parts ih =>
      cases parts with
      | nil =>
          rw [List.intercalate_singleton] at h
          exact .inr ⟨ts, List.mem_cons_self, h⟩
      | cons us parts =>
          rw [List.intercalate_cons_cons, List.mem_append, List.mem_append] at h
          rcases h with (h | h) | h
          · exact .inr ⟨ts, List.mem_cons_self, h⟩
          · exact .inl h
          · exact (ih h).imp_right fun ⟨vs, hvs, ht⟩ => ⟨vs, List.mem_cons_of_mem ts hvs, ht⟩

theorem counted_rejoin {held : List (String × List Token)}
    (h : ∀ m ∈ held, ∀ t ∈ m.2, t.Counted) : ∀ t ∈ rejoin held, t.Counted := by
  intro t ht
  rw [rejoin, List.mem_cons, List.mem_append, List.mem_singleton] at ht
  rcases ht with rfl | ht | rfl
  · trivial
  · rcases mem_intercalate ht with ht | ⟨ts, hts, ht⟩
    · obtain rfl := List.mem_singleton.mp ht
      trivial
    · obtain ⟨m, hm, rfl⟩ := List.mem_map.mp hts
      rw [List.mem_cons, List.mem_cons] at ht
      rcases ht with rfl | rfl | ht
      · trivial
      · trivial
      · exact h m hm t ht
  · trivial

theorem gives : Gives reader Expressible := by
  refine gives_draft.bind fun d hd => ?_
  split
  · split
    · next hreader =>
        have hrest : ∀ t ∈ rejoin (d.held.filter fun m => m.1 ≠ "kind"), t.Counted :=
          counted_rejoin fun m hm => hd.held m (List.mem_of_mem_filter hm)
        exact ((Kind.gives_readerOf? hreader).heldBack hrest).bind fun kind hkind =>
          gives_pure ⟨hd.id, hd.parent, hkind⟩
    · exact gives_mismatch
  · exact gives_mismatch

end Record

/-! ## 5. Arrays and listings -/

namespace Storage

theorem ofName?_name (s : Storage) : ofName? s.name = some s := by cases s <;> decide

end Storage

namespace ArrayDecl

/-- An array that a text can hold. -/
structure Expressible (a : ArrayDecl) : Prop where
  shape : ∀ n ∈ a.shape, n ≤ Count.limit
  bits : a.bits ≤ widthLimit
  scope : ∀ s, a.scope = some s → s ≤ Count.limit
  partition : a.partition ≤ Count.limit

variable {a : ArrayDecl} {k : Nat}

theorem plain_value (h : a.Expressible) : a.value.Plain (k + 2) := by
  obtain ⟨name, shape, bits, storage, scope, partition⟩ := a
  have hshape := Plain.map fun n hn => @Plain.count k n (h.shape n hn)
  have hbits : Plain (k + 1) (.ofNat bits) := .count (Nat.le_trans h.bits (by decide))
  have hpartition : Plain (k + 1) (.ofNat partition) := .count h.partition
  refine .object (List.forall_mem_cons.mpr ⟨.text _, List.forall_mem_cons.mpr ⟨hshape,
    List.forall_mem_cons.mpr ⟨hbits, List.forall_mem_cons.mpr ⟨.text _, ?_⟩⟩⟩⟩)
  cases scope with
  | none => exact List.forall_mem_singleton.mpr hpartition
  | some s =>
      exact List.forall_mem_cons.mpr ⟨.count (h.scope s rfl),
        List.forall_mem_singleton.mpr hpartition⟩

theorem reads (h : a.Expressible) : Reads reader a.value a := by
  obtain ⟨name, shape, bits, storage, scope, partition⟩ := a
  have hshape := reads_list fun n hn => reads_natural (h.shape n hn)
  have hbits := reads_natural h.bits
  have hstorage := reads_choice (Storage.ofName?_name storage) false
  have hpartition := reads_natural h.partition
  cases scope with
  | none =>
      exact Fills.record (.field rfl (by decide) ((reads_text name).map _)
        (.field rfl (by decide) (hshape.map _) (.field rfl (by decide) (hbits.map _)
          (.field rfl (by decide) (hstorage.map _)
            (.field rfl (by decide) (hpartition.map _) .nil))))) (by decide)
  | some s =>
      have hscope := (reads_natural (h.scope s rfl)).some fun hnull => (by cases hnull)
      exact Fills.record (.field rfl (by decide) ((reads_text name).map _)
        (.field rfl (by decide) (hshape.map _) (.field rfl (by decide) (hbits.map _)
          (.field rfl (by decide) (hstorage.map _) (.field rfl (by decide) (hscope.map _)
            (.field rfl (by decide) (hpartition.map _) .nil)))))) (by decide)

theorem gives : Gives reader Expressible := by
  have hblank : Expressible ⟨"", [], 32, .onChip, none, 1⟩ :=
    ⟨List.forall_mem_nil _, by decide, fun s hs => (by cases hs), by decide⟩
  refine gives_record hblank ?_ gives_skipStray
  refine List.forall_mem_cons.mpr ⟨fun a ha => ?_, List.forall_mem_cons.mpr ⟨fun a ha => ?_,
    List.forall_mem_cons.mpr ⟨fun a ha => ?_, List.forall_mem_cons.mpr ⟨fun a ha => ?_,
      List.forall_mem_cons.mpr ⟨fun a ha => ?_, List.forall_mem_singleton.mpr fun a ha => ?_⟩⟩⟩⟩⟩
  · exact gives_text.map fun _ _ => ⟨ha.shape, ha.bits, ha.scope, ha.partition⟩
  · exact (gives_list (gives_natural Count.limit)).map fun _ hn =>
      ⟨hn, ha.bits, ha.scope, ha.partition⟩
  · exact (gives_natural widthLimit).map fun _ hn => ⟨ha.shape, hn, ha.scope, ha.partition⟩
  · exact (gives_choice _ _).map fun _ _ => ⟨ha.shape, ha.bits, ha.scope, ha.partition⟩
  · exact (gives_optional (gives_natural Count.limit)).map fun _ hs =>
      ⟨ha.shape, ha.bits, hs, ha.partition⟩
  · exact (gives_natural Count.limit).map fun _ hn => ⟨ha.shape, ha.bits, ha.scope, hn⟩

end ArrayDecl

namespace Listing

/-- A listing that a text can hold. -/
structure Expressible (l : Listing) : Prop where
  records : ∀ r ∈ l.records, r.Expressible
  arrays : ∀ a ∈ l.arrays, a.Expressible

variable {l : Listing}

theorem plain_value (h : l.Expressible) : l.value.Plain 6 := by
  have hrecords := Plain.map fun r hr => @Record.plain_value r 0 (h.records r hr)
  have harrays := Plain.map fun a ha => @ArrayDecl.plain_value a 2 (h.arrays a ha)
  exact .object (List.forall_mem_cons.mpr ⟨.text _,
    List.forall_mem_cons.mpr ⟨hrecords, List.forall_mem_singleton.mpr harrays⟩⟩)

/-- **A listing** is read back. -/
theorem reads (h : l.Expressible) : Reads reader l.value l := by
  have hrecords := reads_list fun r hr => Record.reads (h.records r hr)
  have harrays := reads_list fun a ha => ArrayDecl.reads (h.arrays a ha)
  exact Fills.record (.field rfl (by decide) ((reads_text l.name).map _)
    (.field rfl (by decide) (hrecords.map _)
      (.field rfl (by decide) (harrays.map _) .nil))) (by decide)

/-- **A listing** that is read can be written. -/
theorem gives : Gives reader Expressible := by
  refine gives_record ⟨List.forall_mem_nil _, List.forall_mem_nil _⟩ ?_ gives_skipStray
  refine List.forall_mem_cons.mpr ⟨fun l hl => ?_, List.forall_mem_cons.mpr ⟨fun l hl => ?_,
    List.forall_mem_singleton.mpr fun l hl => ?_⟩⟩
  · exact gives_text.map fun _ _ => ⟨hl.records, hl.arrays⟩
  · exact (gives_list Record.gives).map fun _ hrecords => ⟨hrecords, hl.arrays⟩
  · exact (gives_list ArrayDecl.gives).map fun _ harrays => ⟨hl.records, harrays⟩

end Listing

end DesignSpace
