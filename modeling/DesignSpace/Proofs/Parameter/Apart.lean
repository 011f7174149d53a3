/-
  Subject:   DESIGNS THAT DIFFER IN SOME PARAMETERS ONLY. A row of writes leaves alone what it does
             not name; and what two rows of writes leave alone that have no parameter in common is
             everything.

  * `Design.AlikeBut`: designs that are alike but for the values of some parameters;
  * `Design.AlikeBut.write`: a write of one of them;
  * `Design.AlikeBut.alike`: **designs that are alike but for some parameters, and also but for
    some others, are alike.**
-/
import DesignSpace.Proofs.Parameter.Untouched

namespace DesignSpace

variable {ps qs : List Parameter} {p : Parameter} {s : Setting} {d d' e : Design}

/-- **Designs that are alike but for some parameters**: without the directives and banks that these
    name they differ in nothing but tiles as long as the loop. -/
structure Design.AlikeBut (ps : List Parameter) (d d' : Design) : Prop where
  name : d.name = d'.name
  forest : (d.forest.map Region.plain).map (Region.without ps) =
    (d'.forest.map Region.plain).map (Region.without ps)
  arrays : d.arrays.map (ArrayDecl.without ps) = d'.arrays.map (ArrayDecl.without ps)
  root : d.root.id = d'.root.id

/-! ## 1. Rows of writes -/

theorem Design.Alike.alikeBut (h : d.Alike d') (ps : List Parameter) : d.AlikeBut ps d' where
  name := h.name
  forest := congrArg _ h.forest
  arrays := congrArg _ h.arrays
  root := h.root

/-- A directive that is left out can have any value, tiles as long as the loop apart. -/
theorem Region.without_plain_alter {id : RegionId} (hp : p.region? = some id) (hmem : p ∈ ps)
    (s : Setting) (r : Region) :
    (alter id (p.change s) r).plain.without ps = r.plain.without ps := by
  unfold alter
  by_cases hid : r.id = id
  · rw [if_pos hid]
    obtain ⟨i, k, c⟩ := r
    obtain rfl : i = id := hid
    show without ps ⟨i, (p.change s k).plain, c⟩ = without ps ⟨i, k.plain, c⟩
    cases p <;> cases hp <;> cases s <;> cases k <;>
      simp [without, Kind.plain, Loop.plain, Parameter.change, hmem]
  · rw [if_neg hid]

namespace Design.AlikeBut

theorem symm (h : d.AlikeBut ps d') : d'.AlikeBut ps d :=
  ⟨h.name.symm, h.forest.symm, h.arrays.symm, h.root.symm⟩

theorem trans (h : d.AlikeBut ps d') (h' : d'.AlikeBut ps e) : d.AlikeBut ps e where
  name := h.name.trans h'.name
  forest := h.forest.trans h'.forest
  arrays := h.arrays.trans h'.arrays
  root := h.root.trans h'.root

/-- **A write of one of the parameters.** -/
theorem write (hmem : p ∈ ps) (hw : d.write p s = .ok d') : d.AlikeBut ps d' := by
  obtain ⟨id, n, hp, -, -, -, rfl⟩ | ⟨name, k, a, rfl, -, -, rfl⟩ := write_cases hw
  · refine ⟨rfl, ?_, rfl, (d.root_id_updateRegion id _).symm⟩
    rw [forest_updateRegion_map, Forest.map_map, Forest.map_map, Forest.map_map]
    exact Forest.map_congr fun r _ => (Region.without_plain_alter hp hmem s r).symm
  · exact ⟨rfl, rfl, (map_without_update hmem k d.arrays).symm, rfl⟩

end Design.AlikeBut

/-! ## 2. Two rows of writes -/

/-- Two forests that agree in two views agree in all that the views have in sight. -/
theorem Forest.eq_of_map {g h : Region → Region} (hgh : ∀ r r', g r = g r' → h r = h r' → r = r')
    {f f' : Forest} (hg : f.map g = f'.map g) (hh : f.map h = f'.map h) : f = f' := by
  induction f generalizing f' with
  | nil =>
      cases f' with
      | nil => rfl
      | cons r below after => cases hg
  | cons r below after ihb iha =>
      cases f' with
      | nil => cases hg
      | cons r' below' after' =>
          obtain ⟨hgr, hgb, hga⟩ := Forest.cons.inj hg
          obtain ⟨hhr, hhb, hha⟩ := Forest.cons.inj hh
          rw [hgh r r' hgr hhr, ihb hgb hhb, iha hga hha]

/-- A value that is left out in one view, and there in the other. -/
theorem eq_of_ite {α : Type} {P Q : Prop} [Decidable P] [Decidable Q] {x y z : α}
    (hPQ : ¬ (P ∧ Q)) (hP : (if P then z else x) = if P then z else y)
    (hQ : (if Q then z else x) = if Q then z else y) : x = y := by
  by_cases h : P
  · have hq : ¬ Q := fun hq => hPQ ⟨h, hq⟩
    rwa [if_neg hq, if_neg hq] at hQ
  · rwa [if_neg h, if_neg h] at hP

/-- A region is known by what is left of it without some parameters and without others. -/
theorem Region.eq_of_without (hdis : ps.Disjoint qs) {r r' : Region}
    (h : r.without ps = r'.without ps) (h' : r.without qs = r'.without qs) : r = r' := by
  have hnot : ∀ p : Parameter, ¬ (p ∈ ps ∧ p ∈ qs) := fun p hp => hdis hp.1 hp.2
  obtain ⟨id, k, c⟩ := r
  obtain ⟨id', k', c'⟩ := r'
  obtain ⟨rfl, hk, rfl⟩ := Region.mk.inj h
  obtain ⟨-, hk', -⟩ := Region.mk.inj h'
  cases k with
  | loop l =>
      cases k' with
      | loop l' =>
          obtain ⟨hiv, htrip, hd⟩ := Loop.mk.inj (Kind.loop.inj hk)
          obtain ⟨-, -, hd'⟩ := Loop.mk.inj (Kind.loop.inj hk')
          obtain ⟨hpipeline, hunroll, htile⟩ := LoopDirectives.mk.inj hd
          obtain ⟨hpipeline', hunroll', htile'⟩ := LoopDirectives.mk.inj hd'
          obtain ⟨iv, trip, pipeline, unroll, tile⟩ := l
          obtain ⟨iv', trip', pipeline', unroll', tile'⟩ := l'
          cases hiv
          cases htrip
          cases eq_of_ite (hnot _) hpipeline hpipeline'
          cases eq_of_ite (hnot _) hunroll hunroll'
          cases eq_of_ite (hnot _) htile htile'
          rfl
      | block _ => cases hk
      | func _ => cases hk
      | dataflow => cases hk
  | func f =>
      cases k' with
      | func f' =>
          obtain ⟨hname, hd⟩ := Func.mk.inj (Kind.func.inj hk)
          obtain ⟨-, hd'⟩ := Func.mk.inj (Kind.func.inj hk')
          obtain ⟨hdataflow, hbalance⟩ := FuncDirectives.mk.inj hd
          obtain ⟨hdataflow', -⟩ := FuncDirectives.mk.inj hd'
          obtain ⟨name, dataflow, balance⟩ := f
          obtain ⟨name', dataflow', balance'⟩ := f'
          cases hname
          cases hbalance
          cases eq_of_ite (hnot _) hdataflow hdataflow'
          rfl
      | block _ => cases hk
      | loop _ => cases hk
      | dataflow => cases hk
  | block _ => cases k' <;> first | cases hk; rfl | cases hk
  | dataflow => cases k' <;> first | cases hk; rfl | cases hk

/-- So is an array. -/
theorem ArrayDecl.eq_of_without (hdis : ps.Disjoint qs) {a b : ArrayDecl}
    (h : a.without ps = b.without ps) (h' : a.without qs = b.without qs) : a = b := by
  obtain ⟨name, shape, bits, storage, scope, partition⟩ := a
  obtain ⟨name', shape', bits', storage', scope', partition'⟩ := b
  obtain ⟨hname, hshape, hbits, hstorage, hscope, hbanks⟩ := ArrayDecl.mk.inj h
  obtain ⟨-, -, -, -, -, hbanks'⟩ := ArrayDecl.mk.inj h'
  cases hname
  cases hshape
  cases hbits
  cases hstorage
  cases hscope
  cases eq_of_ite (fun hp => hdis hp.1 hp.2) hbanks hbanks'
  rfl

theorem map_eq_of_without (hdis : ps.Disjoint qs) {as bs : List ArrayDecl}
    (h : as.map (ArrayDecl.without ps) = bs.map (ArrayDecl.without ps))
    (h' : as.map (ArrayDecl.without qs) = bs.map (ArrayDecl.without qs)) : as = bs := by
  induction as generalizing bs with
  | nil => exact (List.map_eq_nil_iff.mp h.symm).symm
  | cons a as ih =>
      cases bs with
      | nil => cases h
      | cons b bs =>
          obtain ⟨ha, has⟩ := List.cons.inj h
          obtain ⟨ha', has'⟩ := List.cons.inj h'
          rw [ArrayDecl.eq_of_without hdis ha ha', ih has has']

/-- **Designs that are alike but for some parameters, and also but for some others, are alike.** -/
theorem Design.AlikeBut.alike (h : d.AlikeBut ps d') (h' : d.AlikeBut qs d')
    (hdis : ps.Disjoint qs) : d.Alike d' where
  name := h.name
  forest := Forest.eq_of_map (fun _ _ hr hr' => Region.eq_of_without hdis hr hr') h.forest h'.forest
  arrays := map_eq_of_without hdis h.arrays h'.arrays
  root := h.root

end DesignSpace
