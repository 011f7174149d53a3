/-
  Subject:   PARAMETERS WRITTEN AGAIN. Of two writes of one parameter the later one counts, and
             designs that are alike have the same values and take the same writes.

  * `Parameter.change_change`, `change_value`: a second write of a parameter, and a write of the
    value that is there;
  * `Design.write_write_iff`: **the later of two writes counts**;
  * `Design.Alike.setting_eq`, `Alike.exists_write`: what designs have in common that are alike;
  * `Design.admits_write_iff`, `Alike.admits_iff`: so the values that a parameter can be set to are
    still the same ones after it was set.
-/
import DesignSpace.Proofs.Parameter.Admits

namespace DesignSpace

/-! ## 1. Kinds of regions -/

namespace Parameter

variable {p : Parameter} {s previous : Setting} {k : Kind}

/-- **The later change counts.** -/
theorem change_change (ha : p.accepts s = true) (s' : Setting) (k : Kind) :
    p.change s (p.change s' k) = p.change s k := by
  cases p <;> cases s <;> first | cases ha; done | cases s' <;> cases k <;> rfl

/-- The value that is there, written again, leaves a kind of region as it is, but a tile as long as
    the loop is left out. -/
theorem change_value (h : p.value? k = some s) :
    p.change s k = k ∨ ∃ id, p = .tile id ∧ p.change s k = k.plain := by
  cases p with
  | tile id =>
      cases k with
      | loop l =>
          obtain ⟨t, ht, rfl⟩ := Option.map_eq_some_iff.mp h
          obtain ⟨n, hn, rfl⟩ := Option.map_eq_some_iff.mp ht
          refine .inr ⟨id, rfl, ?_⟩
          have hplain : ({ l with directives.tile :=
              (if l.trip.bounded = some (l.directives.tile.getD n) then none
               else some (l.directives.tile.getD n)) } : Loop) = l.plain := by
            unfold Loop.plain
            rw [hn]
            cases hl : l.directives.tile with
            | none => simp
            | some t =>
                by_cases hnt : n = t
                · simp [hnt]
                · simp [hnt, Ne.symm hnt]
          exact congrArg Kind.loop hplain
      | block _ => cases h
      | func _ => cases h
      | dataflow => cases h
  | pipeline _ => cases k <;> first | cases h; exact .inl rfl | cases h
  | unroll _ => cases k <;> first | cases h; exact .inl rfl | cases h
  | partition _ => cases h
  | dataflow _ => cases k <;> first | cases h; exact .inl rfl | cases h

end Parameter

theorem Loop.plain_plain (l : Loop) : l.plain.plain = l.plain := by
  unfold plain
  by_cases ht : l.directives.tile = l.trip.bounded
  · simp [ht]
  · simp [ht]

theorem Kind.plain_plain (k : Kind) : k.plain.plain = k.plain := by
  cases k with
  | loop l => exact congrArg Kind.loop l.plain_plain
  | block _ => rfl
  | func _ => rfl
  | dataflow => rfl

/-- A change of a parameter does not look at tiles as long as the loop. -/
theorem Parameter.plain_change_plain (p : Parameter) (s : Setting) (k : Kind) :
    (p.change s k.plain).plain = (p.change s k).plain := by
  cases k with
  | loop l =>
      have htwice := congrArg Kind.loop l.plain_plain
      cases p with
      | pipeline _ =>
          cases s with
          | flag on =>
              exact congrArg Kind.loop (Loop.plain_plain { l with directives.pipeline := on })
          | factor _ => exact htwice
      | unroll _ =>
          cases s with
          | flag _ => exact htwice
          | factor u =>
              exact congrArg Kind.loop (Loop.plain_plain { l with directives.unroll := u })
      | tile _ =>
          cases s with
          | flag _ => exact htwice
          | factor _ => rfl
      | partition _ => exact htwice
      | dataflow _ => cases s <;> exact htwice
  | block _ => rfl
  | func _ => rfl
  | dataflow => rfl

theorem Region.plain_alter_plain {id : RegionId} {change : Kind → Kind}
    (hc : ∀ k, (change k.plain).plain = (change k).plain) (r : Region) :
    (Region.alter id change r.plain).plain = (Region.alter id change r).plain := by
  obtain ⟨i, k, o⟩ := r
  unfold alter plain
  by_cases hid : i = id
  · simp [hid, hc]
  · simp [hid, k.plain_plain]

namespace Design

variable {d d' e e' : Design} {p : Parameter} {s s' previous : Setting} {id : RegionId}
  {name : String}

/-! ## 2. The later of two writes -/

/-- A design is its name, its tree and its arrays. -/
theorem eq_of_forest (hname : d.name = d'.name) (hforest : d.forest = d'.forest)
    (harrays : d.arrays = d'.arrays) : d = d' := by
  obtain ⟨n, r, b, as⟩ := d
  obtain ⟨n', r', b', as'⟩ := d'
  obtain ⟨hr, hb, -⟩ := Forest.cons.inj hforest
  cases hname
  cases hr
  cases hb
  cases harrays
  rfl

theorem updateRegion_updateRegion {f g h : Kind → Kind} (hfg : ∀ k, g (f k) = h k) :
    (d.updateRegion id f).updateRegion id g = d.updateRegion id h := by
  refine eq_of_forest rfl ?_ rfl
  rw [forest_updateRegion_map, forest_updateRegion_map, forest_updateRegion_map, Forest.map_map]
  refine Forest.map_congr fun r _ => ?_
  show Region.alter id g (Region.alter id f r) = Region.alter id h r
  by_cases hid : r.id = id
  · simp only [Region.alter, if_pos hid, hfg]
  · simp only [Region.alter, if_neg hid]

theorem updateArray_updateArray (d : Design) (name : String) (k k' : Nat) :
    (d.updateArray name fun a => { a with partition := k' }).updateArray name
        (fun a => { a with partition := k }) =
      d.updateArray name fun a => { a with partition := k } := by
  refine eq_of_forest rfl rfl ?_
  show updateArray.update _ _ (updateArray.update _ _ d.arrays) = updateArray.update _ _ d.arrays
  induction d.arrays with
  | nil => rfl
  | cons b bs ih =>
      by_cases hb : b.name = name
      · simp only [updateArray.update, if_pos hb]
      · simp only [updateArray.update, if_neg hb, ih]

/-- **The later of two writes counts**: a parameter that was written can be written as before, and
    with the same result. -/
theorem write_write_iff (hw : d.write p s' = .ok d') :
    d'.write p s = .ok e ↔ d.write p s = .ok e := by
  obtain ⟨id, n, hp, -, hn, hsuits, rfl⟩ | ⟨name, k', a, rfl, -, ha, rfl⟩ := write_cases hw
  · obtain ⟨m, hm, hkind⟩ := find?_self_updateRegion hn (p.bare_change s')
    have hsuits' : p.suits m.region.kind = true := by
      rw [hkind, Parameter.suits_change]
      exact hsuits
    rw [write_eq_ok_iff hp, write_eq_ok_iff hp]
    refine and_congr_right fun haccepts => ?_
    rw [updateRegion_updateRegion fun k => Parameter.change_change haccepts s' k]
    exact and_congr_left' (iff_of_true ⟨m, hm, hsuits'⟩ ⟨n, hn, hsuits⟩)
  · have hget : (d.updateArray name fun a => { a with partition := k' }).array? name =
        some { a with partition := k' } := by
      rw [array?_updateArray d (banking_partition k'), if_pos rfl, ha]
      rfl
    rw [write_partition_eq_ok_iff, write_partition_eq_ok_iff, hget, ha]
    simp only [updateArray_updateArray, Option.some.injEq, exists_eq_left', exists_and_left]

/-! ## 3. Designs that are alike -/

namespace Alike

theorem refl (d : Design) : d.Alike d := ⟨rfl, rfl, rfl, rfl⟩

theorem symm (h : d.Alike d') : d'.Alike d :=
  ⟨h.name.symm, h.forest.symm, h.arrays.symm, h.root.symm⟩

theorem trans (h : d.Alike d') (h' : d'.Alike e) : d.Alike e :=
  ⟨h.name.trans h'.name, h.forest.trans h'.forest, h.arrays.trans h'.arrays,
    h.root.trans h'.root⟩

theorem array?_eq (h : d.Alike d') : d'.array? = d.array? := by
  funext x
  rw [array?, array?, h.arrays]

/-- What a region is, apart from a tile as long as the loop. -/
theorem map_kind_find? (h : d.Alike d') (id : RegionId) :
    (d'.find? id).map (fun n => n.region.kind.plain) =
      (d.find? id).map fun n => n.region.kind.plain := by
  have hfind : (d'.forest.map Region.plain).find? id = (d.forest.map Region.plain).find? id := by
    rw [h.forest]
  rw [Forest.find?_map directing_plain.id_eq, Forest.find?_map directing_plain.id_eq] at hfind
  have hkind := congrArg (Option.map fun n : Nest => n.region.kind) hfind
  rwa [Option.map_map, Option.map_map] at hkind

theorem exists_find? (h : d.Alike d') {n : Nest} (hn : d.find? id = some n) :
    ∃ m, d'.find? id = some m ∧ m.region.kind.plain = n.region.kind.plain := by
  have hmap := h.map_kind_find? id
  rw [hn] at hmap
  exact Option.map_eq_some_iff.mp hmap

/-- The loop that a parameter is about, apart from such a tile. -/
theorem map_loopOf (h : d.Alike d') (p : Parameter) (id : RegionId) :
    (d'.loopOf p id).map Loop.plain = (d.loopOf p id).map Loop.plain := by
  have hmap := h.map_kind_find? id
  unfold loopOf
  cases hn : d.find? id with
  | none =>
      rw [hn, Option.map_none, Option.map_eq_none_iff] at hmap
      rw [hmap]
  | some n =>
      obtain ⟨m, hm, hkind⟩ := h.exists_find? hn
      rw [hm]
      dsimp only
      cases hk : n.region.kind <;> cases hk' : m.region.kind <;> rw [hk, hk'] at hkind <;>
        first
          | rfl
          | exact congrArg Except.ok (Kind.loop.inj hkind)
          | cases hkind

theorem funcOf_eq (h : d.Alike d') (p : Parameter) (id : RegionId) :
    d'.funcOf p id = d.funcOf p id := by
  have hmap := h.map_kind_find? id
  unfold funcOf
  cases hn : d.find? id with
  | none =>
      rw [hn, Option.map_none, Option.map_eq_none_iff] at hmap
      rw [hmap]
  | some n =>
      obtain ⟨m, hm, hkind⟩ := h.exists_find? hn
      rw [hm]
      dsimp only
      cases hk : n.region.kind <;> cases hk' : m.region.kind <;> rw [hk, hk'] at hkind <;>
        first
          | rfl
          | exact congrArg Except.ok (Kind.func.inj hkind)
          | cases hkind

/-- What is read of a loop without regard to such tiles is the same. -/
theorem loopOf_bind_eq (h : d.Alike d') (p : Parameter) (id : RegionId)
    {f : Loop → Except ChangeError Setting} (hf : ∀ l, f l.plain = f l) :
    (d'.loopOf p id >>= f) = (d.loopOf p id >>= f) := by
  have hplain : ∀ x : Except ChangeError Loop, (x >>= f) = (x.map Loop.plain >>= f) := by
    intro x
    cases x with
    | error e => rfl
    | ok l => exact (hf l).symm
  rw [hplain, h.map_loopOf, ← hplain]

/-- **The values of designs that are alike** are the same, and so are the reasons for which a
    parameter has none. -/
theorem setting_eq (h : d.Alike d') (p : Parameter) : d'.setting p = d.setting p := by
  cases p with
  | pipeline id => exact h.loopOf_bind_eq _ id fun _ => rfl
  | unroll id => exact h.loopOf_bind_eq _ id fun _ => rfl
  | tile id =>
      refine h.loopOf_bind_eq _ id fun l => ?_
      rw [l.effectiveTile_plain]
  | partition name =>
      unfold setting
      rw [h.array?_eq]
  | dataflow id => exact congrArg (· >>= _) (h.funcOf_eq _ id)

/-- **Designs that are alike take the same writes**, and are alike after them. -/
theorem exists_write (h : d.Alike d') (hw : d.write p s = .ok e) :
    ∃ e', d'.write p s = .ok e' ∧ e.Alike e' := by
  obtain ⟨id, n, hp, ha, hn, hsuits, rfl⟩ | ⟨name, k, a, rfl, rfl, ha, rfl⟩ := write_cases hw
  · obtain ⟨m, hm, hkind⟩ := h.exists_find? hn
    have hsuits' : p.suits m.region.kind = true := by
      have hplain : ∀ k : Kind, p.suits k.plain = p.suits k := by
        intro k
        cases p <;> cases k <;> rfl
      rw [← hplain, hkind, hplain]
      exact hsuits
    refine ⟨_, (write_eq_ok_iff hp).mpr ⟨ha, ⟨m, hm, hsuits'⟩, rfl⟩, h.name, ?_, h.arrays, ?_⟩
    · -- the change does not tell a region from the region without such a tile
      have halter : ∀ f : Forest, (f.map (Region.alter id (p.change s))).map Region.plain =
          ((f.map Region.plain).map (Region.alter id (p.change s))).map Region.plain := by
        intro f
        rw [Forest.map_map, Forest.map_map, Forest.map_map]
        exact Forest.map_congr fun r _ => (Region.plain_alter_plain (p.plain_change_plain s) r).symm
      rw [forest_updateRegion_map, forest_updateRegion_map, halter, h.forest, ← halter]
    · rw [root_id_updateRegion, root_id_updateRegion]
      exact h.root
  · refine ⟨_, write_partition_eq_ok_iff.mpr ⟨k, a, rfl, by rw [h.array?_eq, ha], rfl⟩, h.name,
      h.forest, ?_, h.root⟩
    exact congrArg (updateArray.update name _) h.arrays

end Alike

/-! ## 4. Values that can be set -/

/-- **A parameter that was set** can be set to the same values as before. -/
theorem admits_write_iff (hprevious : d.setting p = .ok previous) (hw : d.write p s' = .ok d') :
    d'.Admits p s ↔ d.Admits p s := by
  have hs := setting_write hprevious hw
  constructor
  · intro h
    obtain ⟨-, e, -, he, hc⟩ := h
    exact ⟨previous, e, hprevious, (write_write_iff hw).mp he, hc⟩
  · intro h
    obtain ⟨-, e, -, he, hc⟩ := h
    exact ⟨s', e, hs, (write_write_iff hw).mpr he, hc⟩

theorem Alike.admits (h : d.Alike d') (hd : d.Admits p s) : d'.Admits p s := by
  obtain ⟨previous, e, hs, he, hc⟩ := hd
  obtain ⟨e', he', halike⟩ := h.exists_write he
  exact ⟨previous, e', (h.setting_eq p).trans hs, he', halike.check hc⟩

/-- Designs that are alike admit the same values. -/
theorem Alike.admits_iff (h : d.Alike d') : d'.Admits p s ↔ d.Admits p s :=
  ⟨h.symm.admits, h.admits⟩

end Design

end DesignSpace
