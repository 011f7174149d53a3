/-
  Subject:   WRITING PARAMETERS. A parameter of a region is one change of the kind of that region; a
             parameter of an array is a change of its banks.

  * `Parameter.region?`, `value?`, `change`: a parameter seen from the kind of its region;
  * `Design.setting_eq_ok_iff`, `write_eq_ok_iff`: when a parameter can be read and written;
  * `Design.bare_write`: a write changes directives and banks only;
  * `Design.setting_write`: what is written is read;
  * `Design.write_previous`: **the value before written back** gives a design that is alike.
-/
import DesignSpace.Parameter
import DesignSpace.Proofs.Attempt
import DesignSpace.Proofs.Estimate.Plain

namespace DesignSpace

/-! ## 1. Parameters of regions -/

namespace Parameter

/-- The region that a parameter is about; none where that is an array. -/
def region? : Parameter → Option RegionId
  | pipeline id | unroll id | tile id | dataflow id => some id
  | partition _ => none

/-- Whether a setting is of the type of a parameter. -/
def accepts : Parameter → Setting → Bool
  | pipeline _, .flag _ => true
  | pipeline _, .factor _ => false
  | _, .flag _ => false
  | _, .factor _ => true

/-- Whether regions of a kind have a parameter. -/
def suits : Parameter → Kind → Bool
  | pipeline _, .loop _ | unroll _, .loop _ | tile _, .loop _ | dataflow _, .func _ => true
  | _, _ => false

/-- The value of a parameter at a region of a kind. -/
def value? : Parameter → Kind → Option Setting
  | pipeline _, .loop l => some (.flag l.directives.pipeline)
  | unroll _, .loop l => some (.factor l.directives.unroll)
  | tile _, .loop l => l.effectiveTile.map .factor
  | dataflow _, .func f => some (.factor f.directives.dataflow)
  | _, _ => none

/-- A kind of region with another value of a parameter. -/
def change : Parameter → Setting → Kind → Kind
  | pipeline _, .flag on, .loop l => .loop { l with directives.pipeline := on }
  | unroll _, .factor u, .loop l => .loop { l with directives.unroll := u }
  | tile _, .factor t, .loop l =>
    .loop { l with directives.tile := if l.trip.bounded = some t then none else some t }
  | dataflow _, .factor k, .func f => .func { f with directives.dataflow := k }
  | _, _, k => k

variable {p : Parameter} {s previous : Setting} {k : Kind} {id : RegionId}

theorem bare_change (p : Parameter) (s : Setting) (k : Kind) : (p.change s k).bare = k.bare := by
  cases p <;> cases s <;> cases k <;> rfl

theorem suits_of_value? (h : p.value? k = some previous) : p.suits k = true := by
  cases p <;> cases k <;> first | rfl | cases h

theorem accepts_of_value? (h : p.value? k = some previous) : p.accepts previous = true := by
  cases p with
  | tile _ =>
      cases k with
      | loop l =>
          obtain ⟨t, -, rfl⟩ := Option.map_eq_some_iff.mp h
          rfl
      | block _ => cases h
      | func _ => cases h
      | dataflow => cases h
  | pipeline _ => cases k <;> first | cases h; rfl | cases h
  | unroll _ => cases k <;> first | cases h; rfl | cases h
  | partition _ => cases h
  | dataflow _ => cases k <;> first | cases h; rfl | cases h

theorem suits_change (p : Parameter) (s : Setting) (k : Kind) :
    p.suits (p.change s k) = p.suits k := by
  cases p <;> cases s <;> cases k <;> rfl

/-- **The value written is the value read**, where one could be read before. -/
theorem value?_change (h : p.value? k = some previous) (ha : p.accepts s = true) :
    p.value? (p.change s k) = some s := by
  cases p with
  | tile _ =>
      cases k with
      | loop l =>
          obtain ⟨t, ht, rfl⟩ := Option.map_eq_some_iff.mp h
          obtain ⟨n, hn, rfl⟩ := Option.map_eq_some_iff.mp ht
          cases s with
          | flag _ => cases ha
          | factor t =>
              show (l.trip.bounded.map fun n =>
                (if l.trip.bounded = some t then none else some t).getD n).map Setting.factor = _
              rw [hn]
              by_cases hnt : n = t
              · rw [if_pos (congrArg some hnt), hnt]
                rfl
              · rw [if_neg fun h => hnt (Option.some.inj h)]
                rfl
      | block _ => cases h
      | func _ => cases h
      | dataflow => cases h
  | partition _ => cases h
  | pipeline _ => cases k <;> cases s <;> first | rfl | (cases ha; done) | cases h
  | unroll _ => cases k <;> cases s <;> first | rfl | (cases ha; done) | cases h
  | dataflow _ => cases k <;> cases s <;> first | rfl | (cases ha; done) | cases h

/-- **The value before, put back**: the kind is the same but for a tile as long as the loop. -/
theorem plain_change_previous (h : p.value? k = some previous) (s : Setting) :
    (p.change previous (p.change s k)).plain = k.plain := by
  cases p with
  | tile _ =>
      cases k with
      | loop l =>
          obtain ⟨t, ht, rfl⟩ := Option.map_eq_some_iff.mp h
          -- the loop is bounded, and its tile is written as none if it is the whole loop
          obtain ⟨n, hn, rfl⟩ := Option.map_eq_some_iff.mp ht
          have hback : ({ l with directives.tile :=
              (if l.trip.bounded = some (l.directives.tile.getD n) then none
               else some (l.directives.tile.getD n)) } : Loop).plain = l.plain := by
            unfold Loop.plain
            rw [hn]
            cases hl : l.directives.tile with
            | none => simp
            | some t =>
                by_cases hnt : n = t
                · simp [hnt]
                · simp [hnt, Ne.symm hnt]
          cases s <;> exact congrArg Kind.loop hback
      | block _ => cases h
      | func _ => cases h
      | dataflow => cases h
  | pipeline _ => cases k <;> first | (cases h; cases s <;> rfl) | cases h
  | unroll _ => cases k <;> first | (cases h; cases s <;> rfl) | cases h
  | partition _ => cases h
  | dataflow _ => cases k <;> first | (cases h; cases s <;> rfl) | cases h

end Parameter

/-! ## 2. Reading and writing -/

namespace Design

variable {d d' : Design} {p : Parameter} {s previous : Setting} {id : RegionId} {name : String}

theorem loopOf_eq_ok_iff {l : Loop} :
    d.loopOf p id = .ok l ↔ ∃ n, d.find? id = some n ∧ n.region.kind = .loop l := by
  unfold loopOf
  cases d.find? id with
  | none => simp
  | some n => cases hk : n.region.kind <;> simp [hk]

theorem funcOf_eq_ok_iff {f : Func} :
    d.funcOf p id = .ok f ↔ ∃ n, d.find? id = some n ∧ n.region.kind = .func f := by
  unfold funcOf
  cases d.find? id with
  | none => simp
  | some n => cases hk : n.region.kind <;> simp [hk]

theorem loopOf_bind_eq_ok_iff {f : Loop → Except ChangeError Setting}
    {read : Kind → Option Setting}
    (hf : ∀ k, read k = some s ↔ ∃ l, k = .loop l ∧ f l = .ok s) :
    (d.loopOf p id >>= f) = .ok s ↔ ∃ n, d.find? id = some n ∧ read n.region.kind = some s := by
  rw [Attempt.bind_eq_ok_iff]
  constructor
  · rintro ⟨l, hl, hs⟩
    obtain ⟨n, hn, hk⟩ := loopOf_eq_ok_iff.mp hl
    exact ⟨n, hn, (hf _).mpr ⟨l, hk, hs⟩⟩
  · rintro ⟨n, hn, hs⟩
    obtain ⟨l, hk, hs⟩ := (hf _).mp hs
    exact ⟨l, loopOf_eq_ok_iff.mpr ⟨n, hn, hk⟩, hs⟩

/-- A parameter of a region is read where its region has it. -/
theorem setting_eq_ok_iff (hp : p.region? = some id) :
    d.setting p = .ok s ↔ ∃ n, d.find? id = some n ∧ p.value? n.region.kind = some s := by
  cases p with
  | partition _ => cases hp
  | pipeline _ =>
      obtain rfl := Option.some.inj hp
      refine loopOf_bind_eq_ok_iff fun k => ?_
      cases k <;> simp [Parameter.value?, pure, Except.pure]
  | unroll _ =>
      obtain rfl := Option.some.inj hp
      refine loopOf_bind_eq_ok_iff fun k => ?_
      cases k <;> simp [Parameter.value?, pure, Except.pure]
  | tile _ =>
      obtain rfl := Option.some.inj hp
      refine loopOf_bind_eq_ok_iff fun k => ?_
      cases k with
      | loop l =>
          cases ht : l.effectiveTile <;>
            simp [Parameter.value?, ht, pure, Except.pure, throw, throwThe, MonadExceptOf.throw]
      | block _ => simp [Parameter.value?]
      | func _ => simp [Parameter.value?]
      | dataflow => simp [Parameter.value?]
  | dataflow _ =>
      obtain rfl := Option.some.inj hp
      unfold setting
      rw [Attempt.bind_eq_ok_iff]
      constructor
      · rintro ⟨f, hf, hs⟩
        obtain ⟨n, hn, hk⟩ := funcOf_eq_ok_iff.mp hf
        cases hs
        exact ⟨n, hn, by rw [hk]; rfl⟩
      · rintro ⟨n, hn, hs⟩
        cases hk : n.region.kind with
        | func f =>
            rw [hk] at hs
            cases hs
            exact ⟨f, funcOf_eq_ok_iff.mpr ⟨n, hn, hk⟩, rfl⟩
        | block _ => rw [hk] at hs; cases hs
        | loop _ => rw [hk] at hs; cases hs
        | dataflow => rw [hk] at hs; cases hs

theorem setting_partition_eq_ok_iff :
    d.setting (.partition name) = .ok s ↔
      ∃ a, d.array? name = some a ∧ s = .factor a.partition := by
  unfold setting
  cases ha : d.array? name with
  | none => simp [ha]
  | some a => simp [ha, eq_comm]

/-- A directive of a loop is written where the region is a loop. -/
theorem loopOf_then_setLoop_eq_ok_iff {change : Loop → LoopDirectives}
    (hp : ∀ k, p.suits k = true ↔ ∃ l, k = .loop l) (ha : p.accepts s = true)
    (hc : ∀ k, p.change s k =
      match k with
      | .loop l => .loop { l with directives := change l }
      | k => k) :
    (d.loopOf p id >>= fun _ => .ok (d.setLoop id change)) = .ok d' ↔ p.accepts s = true ∧
      (∃ n, d.find? id = some n ∧ p.suits n.region.kind = true) ∧
        d' = d.updateRegion id (p.change s) := by
  have hset : d.setLoop id change = d.updateRegion id (p.change s) :=
    congrArg (d.updateRegion id) (funext hc).symm
  rw [Attempt.bind_eq_ok_iff, hset]
  constructor
  · rintro ⟨l, hl, hr⟩
    obtain ⟨n, hn, hk⟩ := loopOf_eq_ok_iff.mp hl
    exact ⟨ha, ⟨n, hn, (hp _).mpr ⟨l, hk⟩⟩, (Except.ok.inj hr).symm⟩
  · rintro ⟨-, ⟨n, hn, hs⟩, rfl⟩
    obtain ⟨l, hk⟩ := (hp _).mp hs
    exact ⟨l, loopOf_eq_ok_iff.mpr ⟨n, hn, hk⟩, rfl⟩

/-- A setting of another type is not written. -/
theorem loopOf_then_error_ne_ok (err : ChangeError) (d' : Design) :
    (d.loopOf p id >>= fun _ => (.error err : Except ChangeError Design)) ≠ .ok d' := by
  intro h
  obtain ⟨l, -, hr⟩ := Attempt.bind_eq_ok_iff.mp h
  cases hr

/-- A parameter of a region is written where its region has it. -/
theorem write_eq_ok_iff (hp : p.region? = some id) :
    d.write p s = .ok d' ↔ p.accepts s = true ∧
      (∃ n, d.find? id = some n ∧ p.suits n.region.kind = true) ∧
        d' = d.updateRegion id (p.change s) := by
  cases p with
  | partition _ => cases hp
  | pipeline _ =>
      obtain rfl := Option.some.inj hp
      cases s with
      | flag on =>
          exact loopOf_then_setLoop_eq_ok_iff (fun k => by cases k <;> simp [Parameter.suits]) rfl
            fun k => by cases k <;> rfl
      | factor u => exact iff_of_false (loopOf_then_error_ne_ok _ d') fun h => by cases h.1
  | unroll _ =>
      obtain rfl := Option.some.inj hp
      cases s with
      | flag on => exact iff_of_false (loopOf_then_error_ne_ok _ d') fun h => by cases h.1
      | factor u =>
          exact loopOf_then_setLoop_eq_ok_iff (fun k => by cases k <;> simp [Parameter.suits]) rfl
            fun k => by cases k <;> rfl
  | tile _ =>
      obtain rfl := Option.some.inj hp
      cases s with
      | flag on => exact iff_of_false (loopOf_then_error_ne_ok _ d') fun h => by cases h.1
      | factor t =>
          exact loopOf_then_setLoop_eq_ok_iff (fun k => by cases k <;> simp [Parameter.suits]) rfl
            fun k => by cases k <;> rfl
  | dataflow r =>
      obtain rfl : r = id := Option.some.inj hp
      cases s with
      | flag on => exact iff_of_false nofun fun h => by cases h.1
      | factor k =>
          have hset : d.setStages r k = d.updateRegion r ((Parameter.dataflow r).change
              (.factor k)) := congrArg (d.updateRegion r) (funext fun k => by cases k <;> rfl)
          show (d.funcOf _ _ >>= fun _ => .ok (d.setStages _ k)) = .ok d' ↔ _
          rw [Attempt.bind_eq_ok_iff, hset]
          constructor
          · rintro ⟨f, hf, hr⟩
            obtain ⟨n, hn, hk⟩ := funcOf_eq_ok_iff.mp hf
            exact ⟨rfl, ⟨n, hn, by rw [hk]; rfl⟩, (Except.ok.inj hr).symm⟩
          · rintro ⟨-, ⟨n, hn, hs⟩, rfl⟩
            cases hk : n.region.kind with
            | func f => exact ⟨f, funcOf_eq_ok_iff.mpr ⟨n, hn, hk⟩, rfl⟩
            | block _ => rw [hk] at hs; cases hs
            | loop _ => rw [hk] at hs; cases hs
            | dataflow => rw [hk] at hs; cases hs

theorem write_partition_eq_ok_iff :
    d.write (.partition name) s = .ok d' ↔ ∃ k a, s = .factor k ∧ d.array? name = some a ∧
      d' = d.updateArray name fun a => { a with partition := k } := by
  cases s with
  | flag on => simp [write]
  | factor k =>
      unfold write
      cases ha : d.array? name with
      | none => simp [ha]
      | some a => simp [ha, eq_comm]

/-! ## 3. What a write leaves -/

theorem root_id_updateRegion (d : Design) (id : RegionId) (change : Kind → Kind) :
    (d.updateRegion id change).root.id = d.root.id := by
  unfold updateRegion
  by_cases h : d.root.id = id
  · simp [h]
  · simp [h]

theorem forest_updateRegion_map (d : Design) (id : RegionId) (change : Kind → Kind) :
    (d.updateRegion id change).forest = d.forest.map (Region.alter id change) := by
  rw [forest_updateRegion, Forest.update_eq_map]

theorem forest_bare_updateRegion (d : Design) (id : RegionId) {change : Kind → Kind}
    (hc : ∀ k, (change k).bare = k.bare) :
    (d.updateRegion id change).forest.bare = d.forest.bare := by
  rw [forest_updateRegion_map]
  exact Forest.bare_map (directing_alter id hc) _

/-- **The two kinds of writes**: of a region, and of an array. -/
theorem write_cases (h : d.write p s = .ok d') :
    (∃ id n, p.region? = some id ∧ p.accepts s = true ∧ d.find? id = some n ∧
      p.suits n.region.kind = true ∧ d' = d.updateRegion id (p.change s)) ∨
    (∃ name k a, p = .partition name ∧ s = .factor k ∧ d.array? name = some a ∧
      d' = d.updateArray name fun a => { a with partition := k }) := by
  cases hp : p.region? with
  | some id =>
      obtain ⟨ha, ⟨n, hn, hs⟩, hd'⟩ := (write_eq_ok_iff hp).mp h
      exact .inl ⟨id, n, rfl, ha, hn, hs, hd'⟩
  | none =>
      cases p with
      | partition name =>
          obtain ⟨k, a, hs, ha, hd'⟩ := write_partition_eq_ok_iff.mp h
          exact .inr ⟨name, k, a, rfl, hs, ha, hd'⟩
      | pipeline _ => cases hp
      | unroll _ => cases hp
      | tile _ => cases hp
      | dataflow _ => cases hp

theorem banking_partition (k : Nat) : Banking fun a => { a with partition := k } :=
  fun _ => ⟨k, rfl⟩

/-- **A write changes directives and banks only.** -/
theorem bare_write (h : d.write p s = .ok d') : d'.bare = d.bare := by
  obtain ⟨id, n, -, -, -, -, rfl⟩ | ⟨name, k, a, -, -, -, rfl⟩ := write_cases h
  · exact bare_ext rfl (forest_bare_updateRegion d id (p.bare_change s)) rfl
  · have hbanks : ∀ a : ArrayDecl, ArrayDecl.bare { a with partition := k } = a.bare :=
      fun _ => rfl
    exact bare_ext rfl rfl (map_update hbanks d.arrays)

/-! ## 4. The value before -/

theorem find?_updateRegion (id j : RegionId) {change : Kind → Kind}
    (hc : ∀ k, (change k).bare = k.bare) :
    (d.updateRegion id change).find? j = (d.find? j).map (Nest.map (Region.alter id change)) := by
  rw [find?, forest_updateRegion_map, Forest.find?_map (directing_alter id hc).id_eq]
  rfl

/-- The region of a number is the one region that a change of that number is about. -/
theorem eq_of_mem_regions (hd : d.preorder.Nodup) {n : Nest} (hn : d.find? id = some n)
    {r : Region} (hr : r ∈ d.forest.regions) (hid : r.id = id) : r = n.region := by
  obtain ⟨m, hm, rfl⟩ := List.mem_map.mp hr
  obtain ⟨hmem, hnid⟩ := Forest.find?_mem hn
  rw [Forest.eq_of_id_eq hd hm hmem (hid.trans hnid.symm)]

theorem array?_updateArray (d : Design) {change : ArrayDecl → ArrayDecl} (hc : Banking change)
    (x : String) : (d.updateArray name change).array? x =
      if x = name then (d.array? x).map change else d.array? x :=
  find?_update hc x

theorem find?_self_updateRegion {n : Nest} (hn : d.find? id = some n) {change : Kind → Kind}
    (hc : ∀ k, (change k).bare = k.bare) :
    ∃ m, (d.updateRegion id change).find? id = some m ∧
      m.region.kind = change n.region.kind := by
  refine ⟨n.map (Region.alter id change), ?_, ?_⟩
  · rw [find?_updateRegion id id hc, hn]
    rfl
  · show (Region.alter id change n.region).kind = _
    rw [Region.alter, if_pos (Forest.find?_mem hn).2]

/-- **What is written is read.** -/
theorem setting_write (hprevious : d.setting p = .ok previous) (hw : d.write p s = .ok d') :
    d'.setting p = .ok s := by
  obtain ⟨id, n, hp, ha, hn, -, rfl⟩ | ⟨name, k, a, rfl, rfl, ha, rfl⟩ := write_cases hw
  · obtain ⟨n', hn', hvalue⟩ := (setting_eq_ok_iff hp).mp hprevious
    obtain rfl : n' = n := Option.some.inj (hn'.symm.trans hn)
    obtain ⟨m, hm, hkind⟩ := find?_self_updateRegion hn (p.bare_change s)
    refine (setting_eq_ok_iff hp).mpr ⟨m, hm, ?_⟩
    rw [hkind]
    exact Parameter.value?_change hvalue ha
  · refine setting_partition_eq_ok_iff.mpr ⟨{ a with partition := k }, ?_, rfl⟩
    rw [array?_updateArray d (banking_partition k), if_pos rfl, ha]
    rfl

/-- The banks of an array, put back. -/
theorem update_update_partition {arrays : List ArrayDecl} {a : ArrayDecl}
    (ha : arrays.find? (fun x => x.name = name) = some a) (k : Nat) :
    updateArray.update name (fun x => { x with partition := a.partition })
      (updateArray.update name (fun x => { x with partition := k }) arrays) = arrays := by
  induction arrays with
  | nil => rfl
  | cons b bs ih =>
      rw [List.find?_cons] at ha
      by_cases hb : b.name = name
      · rw [decide_eq_true hb] at ha
        obtain rfl := Option.some.inj ha
        rw [updateArray.update, if_pos hb, updateArray.update, if_pos hb]
      · rw [decide_eq_false hb] at ha
        rw [updateArray.update, if_neg hb, updateArray.update, if_neg hb, ih ha]

/-- **The value before, written back**: it can be, and the design is then the one before the write
    but for tiles as long as their loop. -/
theorem write_previous (hd : d.preorder.Nodup) (hprevious : d.setting p = .ok previous)
    (hw : d.write p s = .ok d') : ∃ back, d'.write p previous = .ok back ∧ d.Alike back := by
  obtain ⟨id, n, hp, -, hn, -, rfl⟩ | ⟨name, k, a, rfl, -, ha, rfl⟩ := write_cases hw
  · obtain ⟨n', hn', hvalue⟩ := (setting_eq_ok_iff hp).mp hprevious
    obtain rfl : n' = n := Option.some.inj (hn'.symm.trans hn)
    have hbare := p.bare_change s
    obtain ⟨m, hm, hkind⟩ := find?_self_updateRegion hn hbare
    have hsuits : p.suits m.region.kind = true := by
      rw [hkind, Parameter.suits_change]
      exact Parameter.suits_of_value? hvalue
    refine ⟨_, (write_eq_ok_iff hp).mpr ⟨Parameter.accepts_of_value? hvalue, ⟨m, hm, hsuits⟩,
      rfl⟩, ?_⟩
    refine ⟨rfl, ?_, rfl, ?_⟩
    · rw [forest_updateRegion_map, forest_updateRegion_map, Forest.map_map, Forest.map_map]
      refine Forest.map_congr fun r hr => ?_
      show r.plain = (Region.alter id (p.change previous) (Region.alter id (p.change s) r)).plain
      by_cases hid : r.id = id
      · have hr' := eq_of_mem_regions hd hn hr hid
        have hk := Parameter.plain_change_previous (hr' ▸ hvalue) s
        simp only [Region.alter, if_pos hid, Region.plain, hk]
      · simp only [Region.alter, if_neg hid]
    · rw [root_id_updateRegion, root_id_updateRegion]
  · obtain ⟨a', ha', rfl⟩ := setting_partition_eq_ok_iff.mp hprevious
    obtain rfl : a' = a := Option.some.inj (ha'.symm.trans ha)
    have hget : (d.updateArray name fun a => { a with partition := k }).array? name =
        some { a' with partition := k } := by
      rw [array?_updateArray d (banking_partition k), if_pos rfl, ha]
      rfl
    refine ⟨_, write_partition_eq_ok_iff.mpr ⟨_, _, rfl, hget, rfl⟩, rfl, rfl, ?_, rfl⟩
    exact (update_update_partition ha k).symm

end Design

end DesignSpace
