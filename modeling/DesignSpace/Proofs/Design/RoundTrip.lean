/-
  Subject:   A DESIGN WRITTEN AND READ AGAIN. The text of a design that was read from a text is read
             as the same design, and its listing holds the records that were read.

  * `Record.ParentsFirst`: records each of which comes after its parent;
  * `Forest.parentsFirst_records`: the records of a tree stand in such an order;
  * `Design.Expressible`: a design that a text can hold;
  * `Design.parse_dump`: **written and read again it is the same design**.
-/
import DesignSpace.Proofs.Design.Expressible
import DesignSpace.Proofs.Design.Records

namespace DesignSpace

/-! ## 1. Parents before children -/

/-- **Parents first**: the parent of each record, if there is one, has come before. -/
def Record.ParentsFirst : (before : List RegionId) → List Record → Prop
  | _, [] => True
  | before, r :: rs => (∀ p, r.parent = some p → p ∈ before) ∧ ParentsFirst (r.id :: before) rs

theorem Record.parentsFirst_append {before : List RegionId} {rs rs' : List Record} :
    ParentsFirst before (rs ++ rs') ↔
      ParentsFirst before rs ∧ ParentsFirst ((rs.map Record.id).reverse ++ before) rs' := by
  induction rs generalizing before with
  | nil => exact (and_iff_right trivial).symm
  | cons r rs ih =>
      rw [List.cons_append, ParentsFirst, ParentsFirst, ih, and_assoc, List.map_cons,
        List.reverse_cons, List.append_assoc]
      rfl

/-- **The records of a tree** stand with the parents first. -/
theorem Forest.parentsFirst_records {before : List RegionId} {parent : Option RegionId}
    (h : ∀ p, parent = some p → p ∈ before) (f : Forest) :
    Record.ParentsFirst before (f.records parent) := by
  induction f generalizing before parent with
  | nil => trivial
  | cons r below after ihb iha =>
      rw [records_cons, Record.ParentsFirst, Record.parentsFirst_append]
      refine ⟨h, ihb fun p hp => ?_, iha fun p hp => ?_⟩
      · obtain rfl := Option.some.inj hp
        exact List.mem_cons_self
      · exact List.mem_append_right _ (List.mem_cons_of_mem _ (h p hp))

/-! ## 2. Records under any parent -/

namespace Listing

variable {l : Listing} {d : Design}

theorem expressible_listing (hl : l.Expressible) (h : l.tree = .ok d) : d.listing.Expressible := by
  have hperm := perm_of_tree h
  refine ⟨fun r hr => hl.records r (hperm.mem_iff.mp hr), fun a ha => hl.arrays a ?_⟩
  rw [← arrays_of_tree h]
  exact ha

/-- **Siblings keep their order**, and so does the root among the records without a parent. -/
theorem filter_parent_of_tree (h : l.tree = .ok d) (parent : Option RegionId) :
    (d.listing.records.filter fun r => r.parent = parent) =
      l.records.filter fun r => r.parent = parent := by
  cases parent with
  | some p => exact childrenOf_of_tree h p
  | none =>
      obtain ⟨-, -, root, hroot, -, -⟩ := tree_eq_ok_iff.mp h
      have hnone : ∀ rs : List Record, (rs.filter fun r => r.parent = none) =
          rs.filter fun r => r.parent.isNone := fun rs =>
        List.filter_congr fun r _ => by cases r.parent <;> rfl
      have hperm := (perm_of_tree h).filter fun r => r.parent.isNone
      rw [hroot] at hperm
      rw [hnone, hnone, hroot, List.perm_singleton.mp hperm]

end Listing

/-! ## 3. Written and read again -/

namespace Design

variable {s : String} {d : Design}

/-- What is read of a text: a listing that a text can hold, with the tree and the rules checked. -/
theorem exists_listing_of_parse (h : parse s = .ok d) : ∃ l,
    Json.Reader.document Listing.reader s = .ok l ∧ l.Expressible ∧ l.tree = .ok d ∧
      d.check = .ok () := by
  obtain ⟨l, hread, hdesign⟩ := Attempt.bind_eq_ok_iff.mp h
  have hread := Attempt.mapError_eq_ok_iff.mp hread
  have hdesign := Attempt.mapError_eq_ok_iff.mp hdesign
  obtain ⟨htree, hcheck⟩ := Listing.tree_of_design hdesign
  exact ⟨l, hread, Listing.gives.document hread, htree, hcheck⟩

/-- **A design that a text can hold is read from its own text.** -/
theorem parse_of_expressible (hd : d.listing.Expressible) (htree : d.listing.tree = .ok d)
    (hcheck : d.check = .ok ()) : parse d.dump = .ok d := by
  have hread : Json.Reader.document Listing.reader d.dump = .ok d.listing :=
    (Listing.reads hd).document_pretty (Listing.plain_value hd)
  refine Attempt.bind_eq_ok_iff.mpr ⟨d.listing, Attempt.mapError_eq_ok_iff.mpr hread, ?_⟩
  refine Attempt.mapError_eq_ok_iff.mpr ?_
  exact Attempt.bind_eq_ok_iff.mpr ⟨d, htree, Attempt.bind_eq_ok_iff.mpr ⟨(), hcheck, rfl⟩⟩

/-- **Written and read again it is the same design**, for every text that holds a design. The
    listing written has the records and the arrays that were read: none is lost, doubled or
    changed, parents come first, and siblings keep their order. -/
theorem parse_dump (h : parse s = .ok d) :
    parse d.dump = .ok d ∧ ∃ l, Json.Reader.document Listing.reader s = .ok l ∧
      d.listing.name = l.name ∧ d.listing.arrays = l.arrays ∧
        d.listing.records.Perm l.records ∧ (l.records.map Record.id).Nodup ∧
          Record.ParentsFirst [] d.listing.records ∧
            ∀ parent, (d.listing.records.filter fun r => r.parent = parent) =
              l.records.filter fun r => r.parent = parent := by
  obtain ⟨l, hread, hl, htree, hcheck⟩ := exists_listing_of_parse h
  have hparents : Record.ParentsFirst [] d.listing.records :=
    d.forest.parentsFirst_records fun p hp => (by cases hp)
  refine ⟨parse_of_expressible (Listing.expressible_listing hl htree)
    (Listing.tree_listing htree) hcheck, l, hread, Listing.name_of_tree htree,
    Listing.arrays_of_tree htree, Listing.perm_of_tree htree, (Listing.tree_eq_ok_iff.mp htree).1,
    hparents, Listing.filter_parent_of_tree htree⟩

end Design

/-! ## 4. A text with its records out of order -/

namespace OutOfOrder

/-- A text in which a loop stands before the function it is part of, and the trip count of the loop
    is written as a string of digits. -/
def text : String :=
  "\x7b\"name\":\"scale\",\"regions\":[" ++
    "\x7b\"id\":4,\"parent\":7,\"kind\":\"loop\",\"iv\":\"i\",\"trip\":\"8\"\x7d," ++
    "\x7b\"kind\":\"func\",\"name\":\"top\",\"id\":7\x7d]\x7d"

/-- The design in the text. -/
def design : Design where
  name := "scale"
  root := ⟨7, .func ⟨"top", {}⟩, none⟩
  below := .cons ⟨4, .loop ⟨"i", .symbolic "8", {}⟩, none⟩ .nil .nil
  arrays := []

theorem parse_text : Design.parse text = .ok design := by decide +kernel

end OutOfOrder

/-- The text is read; what is written of it has the parents first, and is read again. -/
theorem Design.parse_dump_outOfOrder : Design.parse OutOfOrder.text = .ok OutOfOrder.design ∧
    OutOfOrder.design.listing.records.map Record.id = [7, 4] ∧
      Design.parse OutOfOrder.design.dump = .ok OutOfOrder.design :=
  ⟨OutOfOrder.parse_text, rfl, (Design.parse_dump OutOfOrder.parse_text).1⟩

end DesignSpace
