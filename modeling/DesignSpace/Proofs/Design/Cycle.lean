/-
  Subject:   REPORTED CYCLES. A listing that has a root and knows all parents is no tree if some
             parents run in circles. What is reported then is the least region that does not hang on
             the root, and that one need not be on a circle itself.

  * `Record.Link`, `OnCycle`, `LeadsToCycle`: from a region to its parent, back to itself, and to a
    region that comes back to itself;
  * `Record.rooted_iff`: a region is rooted unless its parents lead to a cycle;
  * `Design.check_ne_cycle`: the rules for a tree report no cycle;
  * `Listing.design_eq_cycle_iff`: **when a cycle is reported, for which region**, and when this
    region is on a cycle.
-/
import Mathlib.Data.Fintype.EquivFin
import Mathlib.Data.Fintype.Sets
import Mathlib.Logic.Relation
import Mathlib.Order.Bounds.Basic
import DesignSpace.Proofs.Design.Traversal
import DesignSpace.Proofs.Design.WellFormed

namespace DesignSpace

open Relation (ReflTransGen TransGen)

/-! ## 1. Cycles -/

namespace Record

variable {all : List Record} {r : Record} {c p q : RegionId}

/-- A region, and the parent that its record names. -/
def Link (all : List Record) (c p : RegionId) : Prop := ∃ r ∈ all, r.id = c ∧ r.parent = some p

/-- The parents lead from a region back to it. -/
def OnCycle (all : List Record) (c : RegionId) : Prop := TransGen (Link all) c c

/-- The parents lead from a region to one on a cycle, in no steps or in more. -/
def LeadsToCycle (all : List Record) (c : RegionId) : Prop :=
  ∃ q, ReflTransGen (Link all) c q ∧ OnCycle all q

theorem link_iff (hall : (all.map id).Nodup) (hr : r ∈ all) :
    Link all r.id p ↔ r.parent = some p := by
  constructor
  · intro h
    obtain ⟨q, hq, hid, hp⟩ := h
    exact eq_of_id_eq hall hq hr hid ▸ hp
  · exact fun hp => ⟨r, hr, rfl, hp⟩

theorem OnCycle.leads (h : OnCycle all c) : LeadsToCycle all c := ⟨c, .refl, h⟩

/-- A cycle is also where the next region leads. -/
theorem leadsToCycle_iff : LeadsToCycle all c ↔ ∃ p, Link all c p ∧ LeadsToCycle all p := by
  constructor
  · intro h
    obtain ⟨q, hcq, hq⟩ := h
    rcases hcq.cases_head with rfl | ⟨p, hlink, hpq⟩
    · obtain ⟨p, hlink, hpc⟩ := TransGen.head'_iff.mp hq
      exact ⟨p, hlink, c, hpc, hq⟩
    · exact ⟨p, hlink, q, hpq, hq⟩
  · intro h
    obtain ⟨p, hlink, q, hpq, hq⟩ := h
    exact ⟨q, .head hlink hpq, hq⟩

/-- From a rooted region the parents lead to the root, where they end. -/
theorem not_leadsToCycle_of_rooted (hall : (all.map id).Nodup) (hr : r ∈ all)
    (h : Rooted all r) : ¬ LeadsToCycle all r.id := by
  induction h with
  | root hnone =>
      intro hleads
      obtain ⟨p, hlink, -⟩ := leadsToCycle_iff.mp hleads
      rw [link_iff hall hr, hnone] at hlink
      cases hlink
  | step hq hparent _ ih =>
      intro hleads
      obtain ⟨p, hlink, hp⟩ := leadsToCycle_iff.mp hleads
      rw [link_iff hall hr, hparent] at hlink
      exact ih hq (Option.some.inj hlink ▸ hp)

/-- Where the parents lead to no cycle, they go up without end only if there are endlessly many
    records. -/
theorem rooted_of_not_leadsToCycle
    (hknown : ∀ r ∈ all, ∀ p, r.parent = some p → ∃ q ∈ all, q.id = p) (hr : r ∈ all)
    (h : ¬ LeadsToCycle all r.id) : Rooted all r := by
  let Above (a b : { q // q ∈ all }) : Prop :=
    TransGen (Link all) b.1.id a.1.id ∧ ¬ LeadsToCycle all b.1.id
  have : IsTrans _ Above := ⟨fun _ _ _ hab hbc => ⟨hbc.1.trans hab.1, hbc.2⟩⟩
  have : Std.Irrefl Above := ⟨fun _ ha => ha.2 (OnCycle.leads ha.1)⟩
  have hup : ∀ a : { q // q ∈ all }, ¬ LeadsToCycle all a.1.id → Rooted all a.1 := by
    intro a
    induction a using (Finite.wellFounded_of_trans_of_irrefl Above).induction with
    | _ a ih =>
      intro hno
      cases hp : a.1.parent with
      | none => exact .root hp
      | some p =>
          obtain ⟨q, hq, rfl⟩ := hknown a.1 a.2 p hp
          have hlink : Link all a.1.id q.id := ⟨a.1, a.2, rfl, hp⟩
          refine .step hq hp (ih ⟨q, hq⟩ ⟨.single hlink, hno⟩ fun hleads => hno ?_)
          exact leadsToCycle_iff.mpr ⟨q.id, hlink, hleads⟩
  exact hup ⟨r, hr⟩ h

/-- **Rooted or led to a cycle**: there is no third way up. -/
theorem rooted_iff (hall : (all.map id).Nodup)
    (hknown : ∀ r ∈ all, ∀ p, r.parent = some p → ∃ q ∈ all, q.id = p) (hr : r ∈ all) :
    Rooted all r ↔ ¬ LeadsToCycle all r.id :=
  ⟨not_leadsToCycle_of_rooted hall hr, rooted_of_not_leadsToCycle hknown hr⟩

theorem mem_ids_of_leadsToCycle (h : LeadsToCycle all c) : ∃ r ∈ all, r.id = c := by
  obtain ⟨_, ⟨r, hr, hid, -⟩, -⟩ := leadsToCycle_iff.mp h
  exact ⟨r, hr, hid⟩

/-! ## 2. Other reports -/

theorem root?_ne_cycle {known : List RegionId} {first : Option Record} {rs : List Record} :
    root? known first rs ≠ .error (.cycle c) := by
  induction rs generalizing first with
  | nil =>
      intro h
      cases first <;> cases h
  | cons r rs ih =>
      cases hp : r.parent with
      | none =>
          cases first with
          | none =>
              simp only [root?, hp]
              exact ih
          | some f =>
              simp only [root?, hp]
              intro h
              cases h
      | some p =>
          have heq : root? known first (r :: rs) = if known.contains p then root? known first rs
              else .error (.unknownParent r.id p) := by
            cases first <;> simp only [root?, hp]
          rw [heq]
          split
          · exact ih
          · intro h
            cases h

end Record

namespace Design

variable {d : Design} {c : RegionId}

theorem eq_of_demand_eq_error {b : Bool} {e e' : Defect} (h : demand b e = .error e') :
    e = e' := by
  cases b with
  | true => cases h
  | false => exact Except.error.inj h

theorem checkArrays_ne_cycle {before : List String} {as : List ArrayDecl} :
    d.checkArrays before as ≠ .error (.cycle c) := by
  induction as generalizing before with
  | nil => exact nofun
  | cons a as ih =>
      intro h
      rcases Attempt.bind_eq_error_iff.mp h with h | ⟨-, -, h⟩
      · exact absurd (eq_of_demand_eq_error h) nofun
      rcases Attempt.bind_eq_error_iff.mp h with h | ⟨-, -, h⟩
      · obtain ⟨_, -, h⟩ := Attempt.mapError_eq_error_iff.mp h
        cases h
      rcases Attempt.bind_eq_error_iff.mp h with h | ⟨-, -, h⟩
      · obtain ⟨_, -, h⟩ := Attempt.mapError_eq_error_iff.mp h
        cases h
      · exact ih h

theorem checkNest_ne_cycle {n : Nest} : d.checkNest n ≠ .error (.cycle c) := by
  intro h
  unfold checkNest at h
  cases hk : n.region.kind with
  | block b =>
      rw [hk] at h
      rcases Attempt.bind_eq_error_iff.mp h with h | ⟨-, -, h⟩
      · exact absurd (eq_of_demand_eq_error h) nofun
      · obtain ⟨x, -, hx⟩ := Attempt.exists_of_forM_eq_error h
        unfold checkAccess at hx
        cases ha : d.array? x.array with
        | none => rw [ha] at hx; cases hx
        | some a => rw [ha] at hx; exact absurd (eq_of_demand_eq_error hx) nofun
  | loop l =>
      rw [hk] at h
      obtain ⟨_, -, h⟩ := Attempt.mapError_eq_error_iff.mp h
      cases h
  | func f => rw [hk] at h; exact absurd (eq_of_demand_eq_error h) nofun
  | dataflow => rw [hk] at h; cases h

/-- The rules for a tree report no cycle. -/
theorem check_ne_cycle : d.check ≠ .error (.cycle c) := by
  intro h
  rcases Attempt.bind_eq_error_iff.mp h with h | ⟨-, -, h⟩
  · exact checkArrays_ne_cycle h
  · obtain ⟨n, -, hn⟩ := Attempt.exists_of_forM_eq_error h
    exact checkNest_ne_cycle hn

end Design

/-! ## 3. The report -/

namespace Listing

/-- A listing with distinct numbers, one record without a parent, and parents that are there. -/
structure Linked (l : Listing) : Prop where
  distinct : (l.records.map Record.id).Nodup
  oneRoot : ∃ root, l.records.filter (fun r => r.parent.isNone) = [root]
  parents : ∀ r ∈ l.records, ∀ p, r.parent = some p → ∃ q ∈ l.records, q.id = p

variable {l : Listing} {r : RegionId}

/-- The walk from the root misses just the regions that lead to a cycle. -/
theorem mem_missed_iff (hl : l.Linked) {root : Record} {c : RegionId}
    (hfilter : l.records.filter (fun r => r.parent.isNone) = [root]) :
    (c ∈ (l.records.map Record.id).filter fun id =>
      !(Record.subtree l.records root.id).contains id) ↔ Record.LeadsToCycle l.records c := by
  obtain ⟨hroot, hnone⟩ := root_of_filter hfilter
  have hmissed : ∀ q ∈ l.records, (!(Record.subtree l.records root.id).contains q.id) = true ↔
      Record.LeadsToCycle l.records q.id := by
    intro q hq
    rw [subtree_root hl.distinct hroot hnone, Bool.not_eq_true', ← Bool.not_eq_true,
      List.contains_iff_mem, mem_preorder_treeAt_iff hl.distinct hfilter]
    refine not_iff_comm.mp ((Record.rooted_iff hl.distinct hl.parents hq).symm.trans ?_)
    refine ⟨fun hrooted => ⟨q, hq, rfl, hrooted⟩, fun h => ?_⟩
    obtain ⟨q', hq', hid, hrooted⟩ := h
    exact Record.eq_of_id_eq hl.distinct hq' hq hid ▸ hrooted
  rw [List.mem_filter, List.mem_map]
  constructor
  · rintro ⟨⟨q, hq, rfl⟩, hc⟩
    exact (hmissed q hq).mp hc
  · intro hc
    obtain ⟨q, hq, rfl⟩ := Record.mem_ids_of_leadsToCycle hc
    exact ⟨⟨q, hq, rfl⟩, (hmissed q hq).mpr hc⟩

theorem isLeast_missed_iff (hl : l.Linked) {root : Record}
    (hfilter : l.records.filter (fun r => r.parent.isNone) = [root]) :
    ((l.records.map Record.id).filter fun id =>
      !(Record.subtree l.records root.id).contains id).min? = some r ↔
        IsLeast { c | Record.LeadsToCycle l.records c } r := by
  rw [List.min?_eq_some_iff]
  simp only [mem_missed_iff hl hfilter]
  rfl

/-- **The listings whose tree is refused for a cycle**, and the region that is reported. -/
theorem tree_eq_cycle_iff : l.tree = .error (.cycle r) ↔
    l.Linked ∧ IsLeast { c | Record.LeadsToCycle l.records c } r := by
  unfold tree
  cases hr : Record.repeated? [] l.records with
  | some id =>
      refine iff_of_false (fun h => by cases h) fun h => ?_
      rw [Record.repeated?_nil_eq_none_iff.mpr h.1.distinct] at hr
      cases hr
  | none =>
      have hall := Record.repeated?_nil_eq_none_iff.mp hr
      refine Attempt.bind_eq_error_iff.trans ?_
      simp only [Record.root?_eq_ok_iff]
      constructor
      · rintro (h | ⟨root, ⟨hknown, hroot⟩, h⟩)
        · exact absurd h Record.root?_ne_cycle
        have hl : l.Linked :=
          ⟨hall, ⟨root, hroot⟩, fun q hq p hp => List.mem_map.mp (hknown q hq p hp)⟩
        split at h
        · next hmin =>
          obtain rfl := Defect.cycle.inj (Except.error.inj h)
          exact ⟨hl, (isLeast_missed_iff hl hroot).mp hmin⟩
        · cases h
      · rintro ⟨hl, hleast⟩
        obtain ⟨root, hroot⟩ := hl.oneRoot
        refine .inr ⟨root, ⟨fun q hq p hp => List.mem_map.mpr (hl.parents q hq p hp), hroot⟩, ?_⟩
        rw [(isLeast_missed_iff hl hroot).mpr hleast]
        rfl

/-- **When a cycle is reported, and for which region**: for the least region from which the parents
    lead to a cycle. This region is on a cycle just if some region that is has no greater number. -/
theorem design_eq_cycle_iff (l : Listing) (r : RegionId) :
    (l.design = .error (.cycle r) ↔
      l.Linked ∧ IsLeast { c | Record.LeadsToCycle l.records c } r) ∧
    (l.design = .error (.cycle r) →
      (Record.OnCycle l.records r ↔ ∃ c ≤ r, Record.OnCycle l.records c)) := by
  have hdesign : l.design = .error (.cycle r) ↔ l.tree = .error (.cycle r) := by
    refine Attempt.bind_eq_error_iff.trans (or_iff_left fun h => ?_)
    obtain ⟨d, -, h⟩ := h
    rcases Attempt.bind_eq_error_iff.mp h with h | ⟨-, -, h⟩
    · exact Design.check_ne_cycle h
    · cases h
  refine ⟨hdesign.trans tree_eq_cycle_iff, fun h => ⟨fun hr => ⟨r, le_rfl, hr⟩, fun hc => ?_⟩⟩
  obtain ⟨c, hle, hc⟩ := hc
  obtain ⟨-, -, hleast⟩ := tree_eq_cycle_iff.mp (hdesign.mp h)
  exact le_antisymm hle (hleast hc.leads) ▸ hc

/-- A function without parts, and apart from it two loops in each other. -/
def ringed : Listing where
  name := "ringed"
  records :=
    [⟨⟨0, .func { name := "ringed" }, none⟩, none⟩,
     ⟨⟨1, .loop { iv := "i", trip := .static 4 }, none⟩, some 2⟩,
     ⟨⟨2, .loop { iv := "j", trip := .static 4 }, none⟩, some 1⟩]

theorem design_eq_cycle_iff_ringed :
    ringed.design = .error (.cycle 1) ∧
      (ringed.Linked ∧ IsLeast { c | Record.LeadsToCycle ringed.records c } 1) ∧
      (Record.OnCycle ringed.records 1 ↔ ∃ c ≤ 1, Record.OnCycle ringed.records c) :=
  have h : ringed.design = .error (.cycle 1) := by decide +kernel
  ⟨h, (design_eq_cycle_iff ringed 1).1.mp h, (design_eq_cycle_iff ringed 1).2 h⟩

/-- The loop in one of two loops that lie in each other is reported, and nothing lies in it. -/
theorem not_onCycle_circling :
    circling.design = .error (.cycle 1) ∧ ¬ Record.OnCycle circling.records 1 := by
  refine ⟨by decide +kernel, fun h => ?_⟩
  obtain ⟨_, -, q, hq, -, hparent⟩ := TransGen.tail'_iff.mp h
  have hnone : ∀ q ∈ circling.records, q.parent ≠ some 1 := by decide
  exact hnone q hq hparent

end Listing

end DesignSpace
