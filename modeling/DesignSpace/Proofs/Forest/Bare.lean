/-
  Subject:   FORESTS APART FROM THEIR DIRECTIVES. A change of directives leaves the shape of a
             forest, its accesses, its blocks and its loops as they are.

  * `Forest.map`: a forest with every region changed; `Forest.update` is one such change;
  * `Region.bare`, `Forest.bare`: what is left without directives;
  * `Directing`: a change of regions that touches nothing but directives;
  * `Forest.flatten_map`, `accesses_map`, `above_map`, `find?_map`: what such a change leaves;
  * `Design.bare`: a design without directives and banks;
  * `Design.preorder_of_bare`, `ancestors_of_bare`, `scopeOf_of_bare`: designs that differ in
    directives and banks only.
-/
import DesignSpace.Cost.Loop

namespace DesignSpace

/-! ## 1. Changes region by region -/

/-- A forest with every region changed. -/
def Forest.map (g : Region → Region) : Forest → Forest
  | nil => nil
  | cons r below after => cons (g r) (below.map g) (after.map g)

/-- A nest with every region changed. -/
def Nest.map (g : Region → Region) (n : Nest) : Nest := ⟨g n.region, n.below.map g⟩

/-- The change of the regions of one number. -/
def Region.alter (id : RegionId) (change : Kind → Kind) (r : Region) : Region :=
  if r.id = id then { r with kind := change r.kind } else r

namespace Forest

variable {g h : Region → Region}

theorem update_eq_map (id : RegionId) (change : Kind → Kind) (f : Forest) :
    f.update id change = f.map (Region.alter id change) := by
  induction f with
  | nil => rfl
  | cons r below after ihb iha => rw [update, map, ihb, iha]; rfl

theorem nests_map (f : Forest) : (f.map g).nests = f.nests.map (Nest.map g) := by
  induction f with
  | nil => rfl
  | cons r below after ihb iha =>
      rw [map, nests, nests, ihb, iha, List.map_cons, List.map_append]
      rfl

theorem roots_map (f : Forest) : (f.map g).roots = f.roots.map (Nest.map g) := by
  induction f with
  | nil => rfl
  | cons r below after _ iha => rw [map, roots, roots, iha, List.map_cons]; rfl

theorem regions_map (f : Forest) : (f.map g).regions = f.regions.map g := by
  rw [regions, regions, nests_map, List.map_map, List.map_map]
  rfl

theorem map_map (f : Forest) : (f.map g).map h = f.map (h ∘ g) := by
  induction f with
  | nil => rfl
  | cons r below after ihb iha => rw [map, map, map, ihb, iha]; rfl

theorem map_congr {f : Forest} (hgh : ∀ r ∈ f.regions, g r = h r) : f.map g = f.map h := by
  induction f with
  | nil => rfl
  | cons r below after ihb iha =>
      rw [regions_cons] at hgh
      rw [map, map, hgh r List.mem_cons_self,
        ihb fun x hx => hgh x (List.mem_cons_of_mem _ (List.mem_append_left _ hx)),
        iha fun x hx => hgh x (List.mem_cons_of_mem _ (List.mem_append_right _ hx))]

theorem map_id (f : Forest) : f.map id = f := by
  induction f with
  | nil => rfl
  | cons r below after ihb iha => rw [map, ihb, iha]; rfl

theorem ids_map (hg : ∀ r, (g r).id = r.id) (f : Forest) : (f.map g).ids = f.ids := by
  rw [ids, ids, regions_map, List.map_map]
  exact List.map_congr_left fun r _ => hg r

theorem find?_map (hg : ∀ r, (g r).id = r.id) (f : Forest) (id : RegionId) :
    (f.map g).find? id = (f.find? id).map (Nest.map g) := by
  rw [find?, find?, nests_map, List.find?_map]
  congr 2
  funext n
  exact congrArg (fun x => decide (x = id)) (hg n.region)

theorem above_map (hg : ∀ r, (g r).id = r.id) (f : Forest) (id : RegionId) :
    above id (f.map g) = (above id f).map (List.map (Nest.map g)) := by
  induction f with
  | nil => rfl
  | cons r below after ihb iha =>
      rw [map, above, above, hg, ihb, iha]
      split
      · rfl
      · cases above id below <;> rfl

end Forest

/-! ## 2. Without directives -/

/-- The kind of a region without its directives. -/
def Kind.bare : Kind → Kind
  | .block b => .block b
  | .loop l => .loop { l with directives := {} }
  | .func f => .func { f with directives := {} }
  | .dataflow => .dataflow

/-- A region without its directives. -/
def Region.bare (r : Region) : Region := { r with kind := r.kind.bare }

/-- A forest without its directives. -/
def Forest.bare (f : Forest) : Forest := f.map Region.bare

/-- A change of regions that touches nothing but directives. -/
def Directing (g : Region → Region) : Prop := ∀ r, (g r).bare = r.bare

namespace Region

theorem accesses_bare (r : Region) : r.bare.accesses = r.accesses := by
  obtain ⟨_, k, _⟩ := r
  cases k <;> rfl

theorem block?_bare (r : Region) : r.bare.block? = r.block? := by
  obtain ⟨_, k, _⟩ := r
  cases k <;> rfl

theorem isScope_bare (r : Region) : r.bare.kind.isScope = r.kind.isScope := by
  obtain ⟨_, k, _⟩ := r
  cases k <;> rfl

theorem block?_eq_some_iff {r : Region} {b : Block} : r.block? = some b ↔ r.kind = .block b := by
  obtain ⟨_, k, _⟩ := r
  cases k <;> simp [block?]

theorem not_isScope_of_block? {r : Region} (h : r.block?.isSome) : ¬ r.kind.isScope = true := by
  obtain ⟨b, hb⟩ := Option.isSome_iff_exists.mp h
  rw [block?_eq_some_iff.mp hb]
  exact Bool.false_ne_true

theorem loop?_eq_some_iff {r : Region} {l : Loop} : r.loop? = some l ↔ r.kind = .loop l := by
  obtain ⟨_, k, _⟩ := r
  cases k <;> simp [loop?]

/-- The variable and the trip count of a loop are no directives. -/
theorem loopHead_bare (r : Region) :
    r.bare.loop?.map (fun l => (l.iv, l.trip)) = r.loop?.map fun l => (l.iv, l.trip) := by
  obtain ⟨_, k, _⟩ := r
  cases k <;> rfl

end Region

theorem directing_bare : Directing Region.bare := by
  intro r
  obtain ⟨_, k, _⟩ := r
  cases k <;> rfl

theorem directing_alter (id : RegionId) {change : Kind → Kind}
    (hc : ∀ k, (change k).bare = k.bare) : Directing (Region.alter id change) := by
  intro r
  unfold Region.alter
  split
  · exact congrArg (fun k => { r with kind := k }) (hc r.kind)
  · rfl

namespace Directing

variable {g : Region → Region}

theorem id_eq (hg : Directing g) (r : Region) : (g r).id = r.id := by
  show (g r).bare.id = r.bare.id
  rw [hg r]

theorem accesses_eq (hg : Directing g) (r : Region) : (g r).accesses = r.accesses := by
  rw [← Region.accesses_bare, hg, Region.accesses_bare]

theorem block?_eq (hg : Directing g) (r : Region) : (g r).block? = r.block? := by
  rw [← Region.block?_bare, hg, Region.block?_bare]

theorem loopHead_eq (hg : Directing g) (r : Region) :
    (g r).loop?.map (fun l => (l.iv, l.trip)) = r.loop?.map fun l => (l.iv, l.trip) := by
  rw [← Region.loopHead_bare, hg, Region.loopHead_bare]

theorem loop?_isSome_eq (hg : Directing g) (r : Region) :
    (g r).loop?.isSome = r.loop?.isSome := by
  have := congrArg Option.isSome (hg.loopHead_eq r)
  rwa [Option.isSome_map, Option.isSome_map] at this

end Directing

/-! ## 3. What a change of directives leaves -/

namespace Forest

variable {g : Region → Region}

theorem bare_map (hg : Directing g) (f : Forest) : (f.map g).bare = f.bare := by
  rw [bare, map_map]
  exact map_congr fun r _ => hg r

theorem accesses_map (hg : Directing g) (f : Forest) : (f.map g).accesses = f.accesses := by
  rw [accesses, accesses, regions_map, List.flatMap_map]
  congr 1
  funext r
  exact hg.accesses_eq r

theorem loopHeads_map (hg : Directing g) (f : Forest) :
    (f.map g).loops.map (fun l => (l.iv, l.trip)) = f.loops.map fun l => (l.iv, l.trip) := by
  rw [loops, loops, regions_map, List.map_filterMap, List.map_filterMap, List.filterMap_map]
  congr 1
  funext r
  exact hg.loopHead_eq r

/-- The blocks of a flat body do not depend on directives below the loop. -/
theorem flatten_bare (c : Context) (chain : Nat) (f : Forest) :
    f.bare.flatten c chain = f.flatten c chain := by
  induction f generalizing c chain with
  | nil => rfl
  | cons r below after ihb iha =>
      have hacc : (Nest.mk r.bare below.bare).accesses = (Nest.mk r below).accesses :=
        accesses_map directing_bare (Nest.mk r below).toForest
      show (cons r.bare below.bare after.bare).flatten c chain = _
      rw [flatten, flatten, iha, hacc]
      congr 1
      obtain ⟨id, k, comp⟩ := r
      cases k with
      | block b => rfl
      | loop l => exact ihb _ _
      | func f => exact ihb _ _
      | dataflow => exact ihb _ _

theorem flatten_map (hg : Directing g) (c : Context) (chain : Nat) (f : Forest) :
    (f.map g).flatten c chain = f.flatten c chain := by
  rw [← flatten_bare, bare_map hg, flatten_bare]

end Forest

namespace Nest

variable {g : Region → Region}

theorem children_map (n : Nest) : (n.map g).children = n.children.map (Nest.map g) :=
  Forest.roots_map n.below

theorem length_children_map (n : Nest) : (n.map g).children.length = n.children.length := by
  rw [children_map, List.length_map]

theorem ids_map (hg : Directing g) (n : Nest) : (n.map g).ids = n.ids :=
  Forest.ids_map hg.id_eq n.toForest

theorem accesses_map (hg : Directing g) (n : Nest) : (n.map g).accesses = n.accesses :=
  Forest.accesses_map hg n.toForest

theorem isInnermostLoop_map (hg : Directing g) (n : Nest) :
    (n.map g).isInnermostLoop = n.isInnermostLoop := by
  rw [isInnermostLoop, isInnermostLoop, children_map, List.all_map]
  congr 1
  · exact hg.loop?_isSome_eq n.region
  · congr 1
    funext c
    exact congrArg Option.isSome (hg.block?_eq c.region)

theorem innerLoopsStatic_map (hg : Directing g) (n : Nest) :
    (n.map g).innerLoopsStatic = n.innerLoopsStatic := by
  have h : ∀ ls : List Loop, (ls.all fun l => l.trip.bounded.isSome) =
      (ls.map fun l => (l.iv, l.trip)).all fun e => e.2.bounded.isSome := by
    intro ls
    rw [List.all_map]
    rfl
  rw [innerLoopsStatic, innerLoopsStatic, h, h]
  exact congrArg (fun es => List.all es _) (Forest.loopHeads_map hg n.below)

theorem ranges_map (hg : Directing g) (n : Nest) : (n.map g).ranges = n.ranges := by
  have h : ∀ ls : List Loop, ls.map (fun l => (l.iv, l.trip.bounded)) =
      (ls.map fun l => (l.iv, l.trip)).map fun e => (e.1, e.2.bounded) := by
    intro ls
    rw [List.map_map]
    rfl
  rw [ranges, ranges, h, h]
  exact congrArg (fun es => Keyed.ofList (List.map _ es)) (Forest.loopHeads_map hg n.toForest)

end Nest

/-! ## 4. Designs that differ in directives -/

/-- An array without its banks. -/
def ArrayDecl.bare (a : ArrayDecl) : ArrayDecl := { a with partition := 1 }

/-- Lists of arrays that differ in banks have the same names. -/
theorem ArrayDecl.find?_of_bare {arrays arrays' : List ArrayDecl}
    (h : arrays'.map ArrayDecl.bare = arrays.map ArrayDecl.bare) (name : String) :
    (arrays'.find? fun a => a.name = name).map ArrayDecl.bare =
      (arrays.find? fun a => a.name = name).map ArrayDecl.bare := by
  have hfind : ∀ as : List ArrayDecl, (as.find? fun a => a.name = name).map ArrayDecl.bare =
      (as.map ArrayDecl.bare).find? fun a => a.name = name := fun as => by
    rw [List.find?_map]
    rfl
  rw [hfind, hfind, h]

/-- A design without directives and banks. -/
def Design.bare (d : Design) : Design :=
  { d with root := d.root.bare, below := d.below.bare, arrays := d.arrays.map ArrayDecl.bare }

namespace Design

variable {d d' : Design}

theorem forest_of_bare (h : d'.bare = d.bare) : d'.forest.bare = d.forest.bare :=
  congrArg Design.forest h

theorem bare_ext (hname : d'.name = d.name) (hforest : d'.forest.bare = d.forest.bare)
    (harrays : d'.arrays.map ArrayDecl.bare = d.arrays.map ArrayDecl.bare) : d'.bare = d.bare := by
  obtain ⟨_, root', below', arrays'⟩ := d'
  obtain ⟨_, root, below, arrays⟩ := d
  obtain rfl := hname
  have hcons : Forest.cons root'.bare below'.bare .nil = .cons root.bare below.bare .nil := hforest
  injection hcons with hr hb
  show Design.mk _ root'.bare below'.bare (arrays'.map ArrayDecl.bare) =
    Design.mk _ root.bare below.bare (arrays.map ArrayDecl.bare)
  rw [hr, hb, harrays]

theorem preorder_of_bare (h : d'.forest.bare = d.forest.bare) : d'.preorder = d.preorder := by
  have hids := congrArg Forest.ids h
  rwa [Forest.bare, Forest.bare, Forest.ids_map directing_bare.id_eq,
    Forest.ids_map directing_bare.id_eq] at hids

/-- The nests on the path to a region differ in directives only. -/
theorem above_of_bare (h : d'.forest.bare = d.forest.bare) (id : RegionId) :
    (d'.above id).map (Nest.map Region.bare) = (d.above id).map (Nest.map Region.bare) := by
  have habove := congrArg (fun f => (Forest.above id f).getD []) h
  simp only [Forest.bare, Forest.above_map directing_bare.id_eq] at habove
  unfold above
  cases hp' : Forest.above id d'.forest <;> cases hp : Forest.above id d.forest <;>
    rw [hp, hp'] at habove <;> exact habove

theorem ancestors_of_bare (h : d'.forest.bare = d.forest.bare) (id : RegionId) :
    d'.ancestors id = d.ancestors id := by
  have hids := congrArg (List.map fun n : Nest => n.region.id) (above_of_bare h id)
  rw [List.map_map, List.map_map] at hids
  exact congrArg List.reverse hids

/-- The nest of a region differs in directives only. -/
theorem find?_of_bare (h : d'.forest.bare = d.forest.bare) (id : RegionId) :
    (d'.find? id).map (Nest.map Region.bare) = (d.find? id).map (Nest.map Region.bare) := by
  have hfind : d'.forest.bare.find? id = d.forest.bare.find? id := by rw [h]
  rwa [Forest.bare, Forest.bare, Forest.find?_map directing_bare.id_eq,
    Forest.find?_map directing_bare.id_eq] at hfind

theorem subtree_of_bare (h : d'.forest.bare = d.forest.bare) (id : RegionId) :
    d'.subtree id = d.subtree id := by
  have hfind := find?_of_bare h id
  unfold subtree
  cases hn' : d'.find? id with
  | none =>
      cases hn : d.find? id with
      | none => rfl
      | some n =>
          rw [hn', hn] at hfind
          cases hfind
  | some n' =>
      cases hn : d.find? id with
      | none =>
          rw [hn', hn] at hfind
          cases hfind
      | some n =>
          rw [hn', hn] at hfind
          have hids := congrArg Nest.ids (Option.some.inj hfind)
          rwa [Nest.ids_map directing_bare, Nest.ids_map directing_bare] at hids

/-! Neither are arrays and their scopes a matter of directives and banks. -/

theorem scopeOf_of_bare (h : d'.bare = d.bare) {a b : ArrayDecl} (hab : a.bare = b.bare) :
    d'.scopeOf a = d.scopeOf b := by
  have hscope : a.bare.scope = b.bare.scope := by rw [hab]
  have hroot : d'.bare.root.id = d.bare.root.id := by rw [h]
  have hscope : a.scope = b.scope := hscope
  have hroot : d'.root.id = d.root.id := hroot
  rw [scopeOf, scopeOf, hscope, hroot]

theorem exists_array_of_bare (h : d'.bare = d.bare) {a : ArrayDecl} (ha : a ∈ d'.arrays) :
    ∃ b ∈ d.arrays, b.bare = a.bare := by
  have harrays : d'.arrays.map ArrayDecl.bare = d.arrays.map ArrayDecl.bare :=
    congrArg Design.arrays h
  have hmem : a.bare ∈ d.arrays.map ArrayDecl.bare := harrays ▸ List.mem_map_of_mem ha
  exact List.mem_map.mp hmem

theorem array?_of_bare (h : d'.bare = d.bare) (name : String) :
    (d'.array? name).map ArrayDecl.bare = (d.array? name).map ArrayDecl.bare :=
  ArrayDecl.find?_of_bare (congrArg Design.arrays h) name

/-- The nests of a design are, but for directives, those of the other one. -/
theorem exists_nest_of_bare (h : d'.forest.bare = d.forest.bare) {n : Nest}
    (hn : n ∈ d'.forest.nests) : ∃ m ∈ d.forest.nests, m.map Region.bare = n.map Region.bare := by
  have hnests : d'.forest.nests.map (Nest.map Region.bare) =
      d.forest.nests.map (Nest.map Region.bare) := by
    rw [← Forest.nests_map, ← Forest.nests_map]
    exact congrArg Forest.nests h
  have hmem : n.map Region.bare ∈ d.forest.nests.map (Nest.map Region.bare) :=
    hnests ▸ List.mem_map_of_mem hn
  exact List.mem_map.mp hmem

end Design

end DesignSpace
