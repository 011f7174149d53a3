/-
  Subject:   WHAT THE METRICS OF PARTS SAY OF THE WHOLE, however the parts are grouped into stages.

  * `Estimator.stagesOf_slices`: the stages of a region make up its parts;
  * `storage_le_composeStages`: **no memory of a part is lost**, up to the limit of counts;
  * `Cycles.AtMost`: known whenever the other is, and then no more;
  * `Estimator.composeStages_atMost`: **parts that become faster make no whole slower**, also where
    the stages are balanced anew.
-/
import DesignSpace.Estimate
import DesignSpace.Proofs.Stages

namespace DesignSpace

variable {n m : Nest} {parts parts' : List Metrics} {stages : List Span} {xs ys : List Nat}

/-! ## 1. The stages of a region -/

theorem length_evenStages (n k : Nat) : (evenStages n k).length = stageCount n k := by
  have hlength : ∀ (start : Nat) (sizes : List Nat),
      (Span.consecutive start sizes).length = sizes.length := by
    intro start sizes
    induction sizes generalizing start with
    | nil => rfl
    | cons size sizes ih => rw [Span.consecutive, List.length_cons, List.length_cons, ih]
  have hmod := Nat.mod_lt n (stageCount_pos n k)
  unfold evenStages
  rw [hlength, List.length_append, List.length_replicate, List.length_replicate]
  omega

/-- All latencies are known, and which they are. -/
theorem mapM_latency_eq_some_iff :
    (parts.mapM fun p => p.latency.toOption) = some xs ↔
      parts.map Metrics.latency = xs.map Cycles.known := by
  induction parts generalizing xs with
  | nil => cases xs <;> simp
  | cons p parts ih =>
      rw [List.mapM_cons]
      cases hp : p.latency with
      | unknown => cases xs <;> simp [Cycles.toOption, hp]
      | known a =>
          cases xs with
          | nil => cases parts.mapM fun p => p.latency.toOption <;> simp [Cycles.toOption]
          | cons x xs =>
              rw [List.map_cons, List.map_cons, hp, List.cons.injEq, Cycles.known.injEq, ← ih]
              cases parts.mapM fun p => p.latency.toOption <;> simp [Cycles.toOption]

theorem length_latencies (h : parts.map Metrics.latency = xs.map Cycles.known) :
    parts.length = xs.length := by
  have hlength := congrArg List.length h
  rwa [List.length_map, List.length_map] at hlength

namespace Estimator

/-- **The stages of a region make up its parts**, and are as many as the region has. -/
theorem stagesOf_slices (n : Nest) (parts : List Metrics) :
    (stagesOf n parts).flatMap (fun s => s.slice parts) = parts ∧
      (stagesOf n parts).length = stageCount parts.length n.stages := by
  have heven := And.intro (evenStages_slices parts n.stages)
    (length_evenStages parts.length n.stages)
  unfold stagesOf
  by_cases hb : n.region.balances = true
  · rw [if_pos hb]
    cases hm : parts.mapM fun m => m.latency.toOption with
    | none => exact heven
    | some xs =>
        have hlength := length_latencies (mapM_latency_eq_some_iff.mp hm)
        rw [hlength]
        exact balancedStages_slices xs parts hlength n.stages
  · rw [if_neg hb]
    exact heven

end Estimator

/-- Whether a region is a loop that is pipelined. -/
def Region.isPipelined (r : Region) : Bool :=
  match r.loop? with
  | some l => l.directives.pipeline
  | none => false

/-- Whether a pipelined loop is around a region. -/
def Design.buried (d : Design) (id : RegionId) : Bool :=
  (d.above id).any fun n => n.region.isPipelined

/-- Whether a nest is priced with no look at its parts: a block, or a loop with a flat body. -/
def Nest.isFlat (n : Nest) : Bool :=
  match n.region.kind with
  | .block _ => true
  | .loop l => l.directives.pipeline || n.isInnermostLoop
  | _ => false

/-! ## 2. Memory -/

/-- A kind of hardware is added up with no regard to the others. -/
theorem Resources.get_foldl {k : ResourceKind} {f : Resources → Resources → Resources}
    {g : Nat → Nat → Nat} (h : ∀ a b, (f a b).get k = g (a.get k) (b.get k)) (r : Resources)
    (parts : List Metrics) : (parts.foldl (fun r p => f r p.resources) r).get k =
      (parts.map fun p => p.resources.get k).foldl g (r.get k) := by
  induction parts generalizing r with
  | nil => rfl
  | cons p parts ih => rw [List.foldl_cons, ih, h, List.map_cons, List.foldl_cons]

/-- The memory of the parts, one after the other or at the same time. -/
theorem storage_compose (kind : Composition) (parts : List Metrics) :
    min (parts.map fun p => p.resources.storageElements).sum Count.limit ≤
      (compose kind parts).resources.storageElements := by
  cases parts with
  | nil => exact Nat.min_le_left _ _
  | cons first rest =>
      have hsum : (compose kind (first :: rest)).resources.get .storageElement =
          (rest.map fun p => p.resources.storageElements).foldl Count.add
            first.resources.storageElements := by
        cases kind with
        | sequential => exact Resources.get_foldl (f := Resources.sequential) (fun _ _ => rfl) _ _
        | dataflow => exact Resources.get_foldl (f := Resources.concurrent) (fun _ _ => rfl) _ _
      show _ ≤ (compose kind (first :: rest)).resources.get .storageElement
      rw [hsum, Count.foldl_add, List.map_cons, List.sum_cons]
      by_cases hrest : rest = []
      · subst hrest
        exact Nat.min_le_left _ _
      · exact Nat.le_of_eq (if_neg (by simpa using hrest)).symm

/-- **No memory of a part is lost** in stages that make up the whole. -/
theorem storage_le_composeStages (hstages : stages.flatMap (fun s => s.slice parts) = parts) :
    min (parts.map fun p => p.resources.storageElements).sum Count.limit ≤
      (composeStages parts stages).resources.storageElements := by
  unfold composeStages
  by_cases h : stages.length ≤ 1
  · rw [if_pos h]
    exact storage_compose _ _
  · rw [if_neg h]
    refine Nat.le_trans ?_ (storage_compose _ _)
    -- the limit can be reached in a stage as well as in the whole
    have hparts : ∀ spans : List Span,
        min ((spans.flatMap fun s => s.slice parts).map fun p => p.resources.storageElements).sum
            Count.limit ≤
          min ((spans.map fun s => compose .sequential (s.slice parts)).map
            fun p => p.resources.storageElements).sum Count.limit := by
      intro spans
      induction spans with
      | nil => exact Nat.le_refl _
      | cons s spans ih =>
          have hs := storage_compose .sequential (s.slice parts)
          simp only [List.flatMap_cons, List.map_append, List.sum_append, List.map_cons,
            List.sum_cons]
          omega
    have h := hparts stages
    rwa [hstages] at h

/-! ## 3. Latency -/

/-- Known whenever the other one is known, and then not larger. -/
def Cycles.AtMost (a b : Cycles) : Prop := ∀ n, b = .known n → ∃ k ≤ n, a = .known k

/-- Cycles that are known are at most the limit. -/
def Cycles.Bounded (c : Cycles) : Prop := ∀ n, c = .known n → n ≤ Count.limit

namespace Cycles

variable {a b c a' b' : Cycles}

theorem AtMost.refl (a : Cycles) : a.AtMost a := fun n h => ⟨n, Nat.le_refl n, h⟩

theorem AtMost.trans (h : a.AtMost b) (h' : b.AtMost c) : a.AtMost c := by
  intro n hn
  obtain ⟨k, hk, hb⟩ := h' n hn
  obtain ⟨j, hj, ha⟩ := h k hb
  exact ⟨j, Nat.le_trans hj hk, ha⟩

theorem AtMost.add (h : a'.AtMost a) (h' : b'.AtMost b) : (a'.add b').AtMost (a.add b) := by
  intro n hn
  cases a with
  | unknown => cases hn
  | known x =>
      cases b with
      | unknown => cases hn
      | known y =>
          obtain ⟨x', hx, rfl⟩ := h x rfl
          obtain ⟨y', hy, rfl⟩ := h' y rfl
          refine ⟨Count.add x' y', ?_, rfl⟩
          rw [← Cycles.known.inj hn]
          unfold Count.add
          omega

theorem AtMost.scale (h : a'.AtMost a) (factor : Nat) :
    (a'.scale factor).AtMost (a.scale factor) := by
  intro n hn
  cases a with
  | unknown => cases hn
  | known x =>
      obtain ⟨x', hx, rfl⟩ := h x rfl
      refine ⟨Count.mul x' factor, ?_, rfl⟩
      rw [← Cycles.known.inj hn]
      have := Nat.mul_le_mul_right factor hx
      unfold Count.mul
      omega

theorem bounded_add (a b : Cycles) : (a.add b).Bounded := by
  intro n hn
  cases a <;> cases b <;> cases hn
  exact Count.add_le_limit _ _

theorem bounded_scale (a : Cycles) (factor : Nat) : (a.scale factor).Bounded := by
  intro n hn
  cases a <;> cases hn
  exact Count.mul_le_limit _ _

end Cycles

theorem foldl_max_le_iff {a b : Nat} : xs.foldl max a ≤ b ↔ a ≤ b ∧ ∀ x ∈ xs, x ≤ b := by
  induction xs generalizing a with
  | nil => simp
  | cons x xs ih =>
      rw [List.foldl_cons, ih, Nat.max_le, List.forall_mem_cons, and_assoc]

/-- Known cycles taken together in one way for cycles and in another for their numbers. -/
theorem foldl_known {f : Cycles → Cycles → Cycles} {g : Nat → Nat → Nat}
    (hfg : ∀ x y, f (.known x) (.known y) = .known (g x y)) (x : Nat)
    (h : parts.map Metrics.latency = xs.map Cycles.known) :
    parts.foldl (fun c p => f c p.latency) (.known x) = .known (xs.foldl g x) := by
  induction parts generalizing x xs with
  | nil =>
      obtain rfl : xs = [] := by simpa using h.symm
      rfl
  | cons p parts ih =>
      cases xs with
      | nil => cases h
      | cons y xs =>
          obtain ⟨hp, hparts⟩ := List.cons.inj h
          rw [List.foldl_cons, List.foldl_cons, hp, hfg]
          exact ih (g x y) hparts

/-- What is known in the end was known of each part. -/
theorem known_of_foldl {f : Cycles → Cycles → Cycles}
    (hf : ∀ x y, f x y = .unknown ↔ x = .unknown ∨ y = .unknown) {c : Cycles}
    (h : parts.foldl (fun c p => f c p.latency) c ≠ .unknown) :
    ∃ (x : Nat) (xs : List Nat), c = .known x ∧
      parts.map Metrics.latency = xs.map Cycles.known := by
  induction parts generalizing c with
  | nil =>
      cases c with
      | unknown => exact absurd rfl h
      | known x => exact ⟨x, [], rfl, rfl⟩
  | cons p parts ih =>
      obtain ⟨z, xs, hz, hxs⟩ := ih h
      have hz : f c p.latency = .known z := hz
      cases c with
      | unknown =>
          rw [(hf .unknown p.latency).mpr (.inl rfl)] at hz
          cases hz
      | known x =>
          cases hp : p.latency with
          | unknown =>
              rw [(hf (.known x) p.latency).mpr (.inr hp)] at hz
              cases hz
          | known y => exact ⟨x, y :: xs, rfl, by rw [List.map_cons, List.map_cons, hp, hxs]⟩

/-- Known latencies one after the other. -/
theorem latency_sequential (h : parts.map Metrics.latency = xs.map Cycles.known)
    (hx : ∀ x ∈ xs, x ≤ Count.limit) :
    (compose .sequential parts).latency = .known (Count.sum xs) := by
  cases parts with
  | nil =>
      obtain rfl : xs = [] := by simpa using h.symm
      rfl
  | cons first rest =>
      cases xs with
      | nil => cases h
      | cons x xs =>
          obtain ⟨hfirst, hrest⟩ := List.cons.inj h
          have hsum : Count.sum (x :: xs) = xs.foldl Count.add x := by
            have hle := hx x List.mem_cons_self
            have hzero : Count.add 0 x = x := by
              unfold Count.add
              omega
            rw [Count.sum, List.foldl_cons, hzero]
          show rest.foldl (fun c p => c.add p.latency) first.latency = _
          rw [hfirst, hsum]
          exact foldl_known (fun _ _ => rfl) x hrest

/-- Known latencies at the same time. -/
theorem latency_dataflow (h : parts.map Metrics.latency = xs.map Cycles.known) (hxs : xs ≠ []) :
    (compose .dataflow parts).latency =
      .known (Count.add (xs.foldl max 0) (Count.mul stageSkew (xs.length - 1))) := by
  cases parts with
  | nil => exact absurd (by simpa using h.symm) hxs
  | cons first rest =>
      cases xs with
      | nil => exact absurd rfl hxs
      | cons x xs =>
          obtain ⟨hfirst, hrest⟩ := List.cons.inj h
          have hlength := length_latencies hrest
          have hfold : rest.foldl (fun c p => Cycles.max c p.latency) (.known x) =
              .known (xs.foldl max x) := foldl_known (fun _ _ => rfl) x hrest
          show (rest.foldl (fun c p => c.max p.latency) first.latency).add _ = _
          rw [hfirst, hfold, hlength, List.foldl_cons, Nat.zero_max, List.length_cons,
            Nat.add_sub_cancel]
          rfl

/-- A latency that is known comes from parts whose latencies are. -/
theorem latencies_of_compose {kind : Composition} {a : Nat}
    (h : (compose kind parts).latency = .known a) :
    ∃ xs : List Nat, parts.map Metrics.latency = xs.map Cycles.known := by
  cases parts with
  | nil => exact ⟨[], rfl⟩
  | cons first rest =>
      have hknown : ∃ (x : Nat) (xs : List Nat), first.latency = .known x ∧
          rest.map Metrics.latency = xs.map Cycles.known := by
        cases kind with
        | sequential =>
            have h : rest.foldl (fun c p => c.add p.latency) first.latency = .known a := h
            exact known_of_foldl Cycles.add_eq_unknown_iff (by rw [h]; exact nofun)
        | dataflow =>
            have h : (rest.foldl (fun c p => c.max p.latency) first.latency).add
              (.known (Count.mul stageSkew rest.length)) = .known a := h
            refine known_of_foldl Cycles.max_eq_unknown_iff fun hunknown => ?_
            rw [hunknown] at h
            cases h
      obtain ⟨x, xs, hx, hxs⟩ := hknown
      exact ⟨x :: xs, by rw [List.map_cons, List.map_cons, hx, hxs]⟩

theorem map_slice {α β : Type} (f : α → β) (s : Span) (items : List α) :
    (s.slice items).map f = s.slice (items.map f) := by
  rw [Span.slice, Span.slice, List.map_take, List.map_drop]

/-- The sum of the items of each stage. -/
def stageSums (xs : List Nat) (stages : List Span) : List Nat :=
  stages.map fun s => Count.sum (s.slice xs)

/-- The latencies of the stages themselves. -/
theorem latencies_stages (h : parts.map Metrics.latency = xs.map Cycles.known)
    (hx : ∀ x ∈ xs, x ≤ Count.limit) (stages : List Span) :
    (stages.map fun s => compose .sequential (s.slice parts)).map Metrics.latency =
      (stageSums xs stages).map Cycles.known := by
  rw [stageSums, List.map_map, List.map_map]
  refine List.map_congr_left fun s _ => ?_
  refine latency_sequential (by rw [map_slice, h, map_slice]) fun x hmem => hx x ?_
  exact List.mem_of_mem_drop (List.mem_of_mem_take hmem)

/-- **Known latencies in stages**: the slowest stage, and the skew of the stages after the first. -/
theorem latency_composeStages (h : parts.map Metrics.latency = xs.map Cycles.known)
    (hx : ∀ x ∈ xs, x ≤ Count.limit) (stages : List Span) :
    (composeStages parts stages).latency =
      if stages.length ≤ 1 then .known (Count.sum xs)
      else .known (Count.add ((stageSums xs stages).foldl max 0)
        (Count.mul stageSkew (stages.length - 1))) := by
  unfold composeStages
  by_cases hone : stages.length ≤ 1
  · rw [if_pos hone, if_pos hone]
    exact latency_sequential h hx
  · rw [if_neg hone, if_neg hone]
    have hlength : (stageSums xs stages).length = stages.length := List.length_map _
    rw [latency_dataflow (latencies_stages h hx stages), hlength]
    intro hnil
    rw [hnil] at hlength
    exact hone (by rw [← hlength]; exact Nat.zero_le 1)

/-- Where the whole is known, so are the parts. -/
theorem latencies_of_composeStages (hstages : stages.flatMap (fun s => s.slice parts) = parts)
    {a : Nat} (h : (composeStages parts stages).latency = .known a) :
    ∃ xs : List Nat, parts.map Metrics.latency = xs.map Cycles.known := by
  unfold composeStages at h
  by_cases hone : stages.length ≤ 1
  · rw [if_pos hone] at h
    exact latencies_of_compose h
  · rw [if_neg hone] at h
    obtain ⟨ys, hys⟩ := latencies_of_compose h
    -- each stage is known, so its parts are
    have hparts : ∀ (spans : List Span) (ys : List Nat),
        (spans.map fun s => compose .sequential (s.slice parts)).map Metrics.latency =
          ys.map Cycles.known →
        ∃ xs : List Nat, (spans.flatMap fun s => s.slice parts).map Metrics.latency =
          xs.map Cycles.known := by
      intro spans
      induction spans with
      | nil => exact fun _ _ => ⟨[], rfl⟩
      | cons s spans ih =>
          intro ys hys
          cases ys with
          | nil => cases hys
          | cons y ys =>
              obtain ⟨hs, hspans⟩ := List.cons.inj hys
              obtain ⟨zs, hzs⟩ := latencies_of_compose hs
              obtain ⟨xs, hxs⟩ := ih ys hspans
              refine ⟨zs ++ xs, ?_⟩
              rw [List.flatMap_cons, List.map_append, List.map_append, hzs, hxs]
    obtain ⟨xs, hxs⟩ := hparts stages ys hys
    exact ⟨xs, hstages ▸ hxs⟩

theorem bounded_compose {kind : Composition} (h : ∀ p ∈ parts, p.latency.Bounded) :
    (compose kind parts).latency.Bounded := by
  cases parts with
  | nil =>
      intro n hn
      rw [← Cycles.known.inj hn]
      exact Nat.zero_le _
  | cons first rest =>
      cases kind with
      | dataflow => exact Cycles.bounded_add _ _
      | sequential =>
          have hfold : ∀ (c : Cycles) (ms : List Metrics), c.Bounded →
              (ms.foldl (fun c p => c.add p.latency) c).Bounded := by
            intro c ms hc
            induction ms generalizing c with
            | nil => exact hc
            | cons m ms ih => exact ih _ (Cycles.bounded_add _ _)
          exact hfold first.latency rest (h first List.mem_cons_self)

theorem bounded_composeStages (h : ∀ p ∈ parts, p.latency.Bounded) (stages : List Span) :
    (composeStages parts stages).latency.Bounded := by
  unfold composeStages
  by_cases hone : stages.length ≤ 1
  · rw [if_pos hone]
    exact bounded_compose h
  · rw [if_neg hone]
    refine bounded_compose fun p hp => ?_
    obtain ⟨s, -, rfl⟩ := List.mem_map.mp hp
    exact bounded_compose fun q hq => h q (List.mem_of_mem_drop (List.mem_of_mem_take hq))

/-! ## 4. Faster parts -/

namespace Estimator

/-- Parts one by one at most as slow as others. -/
def NoSlower (parts' parts : List Metrics) : Prop :=
  List.Forall₂ (fun p' p => p'.latency.AtMost p.latency) parts' parts

/-- Where parts are known, faster ones are known, and no sum of theirs is larger. -/
theorem NoSlower.latencies (h : NoSlower parts' parts)
    (hparts : parts.map Metrics.latency = xs.map Cycles.known) :
    ∃ ys, parts'.map Metrics.latency = ys.map Cycles.known ∧ List.Forall₂ (· ≤ ·) ys xs := by
  unfold NoSlower at h
  induction h generalizing xs with
  | nil =>
      obtain rfl : xs = [] := by simpa using hparts.symm
      exact ⟨[], rfl, .nil⟩
  | @cons p' p parts' parts hp _ ih =>
      cases xs with
      | nil => cases hparts
      | cons x xs =>
          obtain ⟨hx, hxs⟩ := List.cons.inj hparts
          obtain ⟨y, hy, hy'⟩ := hp x hx
          obtain ⟨ys, hys, hle⟩ := ih hxs
          exact ⟨y :: ys, by rw [List.map_cons, List.map_cons, hy', hys], .cons hy hle⟩

/-- No stage of faster parts is slower than the slowest one was. -/
theorem stageSums_le (hbalance : m.region.balances = n.region.balances) (hm : m.stages = n.stages)
    (hparts : parts.map Metrics.latency = xs.map Cycles.known)
    (hparts' : parts'.map Metrics.latency = ys.map Cycles.known)
    (hle : List.Forall₂ (· ≤ ·) ys xs) :
    (stageSums ys (stagesOf m parts')).foldl max 0 ≤
      (stageSums xs (stagesOf n parts)).foldl max 0 := by
  have hlength : parts'.length = parts.length := by
    rw [length_latencies hparts', length_latencies hparts, hle.length_eq]
  have hstages : ∀ b, (∀ s ∈ stagesOf n parts, Count.sum (s.slice xs) ≤ b) →
      ∀ s ∈ stagesOf m parts', Count.sum (s.slice ys) ≤ b := by
    intro b hb
    have heven : (∀ s ∈ evenStages parts.length n.stages, Count.sum (s.slice xs) ≤ b) →
        ∀ s ∈ evenStages parts.length n.stages, Count.sum (s.slice ys) ≤ b := fun hb s hs =>
      Nat.le_trans (count_sum_le (List.forall₂_take _ (List.forall₂_drop _ hle))) (hb s hs)
    unfold stagesOf at hb ⊢
    rw [hbalance, hlength, hm, mapM_latency_eq_some_iff.mpr hparts']
    rw [mapM_latency_eq_some_iff.mpr hparts] at hb
    by_cases hbal : n.region.balances = true
    · rw [if_pos hbal] at hb ⊢
      exact balancedStages_mono hle n.stages b hb
    · rw [if_neg hbal] at hb ⊢
      exact heven hb
  refine foldl_max_le_iff.mpr ⟨Nat.zero_le _, fun y hy => ?_⟩
  obtain ⟨s, hs, rfl⟩ := List.mem_map.mp hy
  refine hstages _ (fun s hs => ?_) s hs
  exact (foldl_max_le_iff.mp (Nat.le_refl _)).2 _ (List.mem_map_of_mem hs)

/-- **Parts that become faster make no whole slower.** -/
theorem composeStages_atMost (hbalance : m.region.balances = n.region.balances)
    (hm : m.stages = n.stages) (h : NoSlower parts' parts)
    (hbounded : ∀ p ∈ parts, p.latency.Bounded) (hbounded' : ∀ p ∈ parts', p.latency.Bounded) :
    (composeStages parts' (stagesOf m parts')).latency.AtMost
      (composeStages parts (stagesOf n parts)).latency := by
  intro a ha
  obtain ⟨hslices, hcount⟩ := stagesOf_slices n parts
  obtain ⟨-, hcount'⟩ := stagesOf_slices m parts'
  obtain ⟨xs, hxs⟩ := latencies_of_composeStages hslices ha
  obtain ⟨ys, hys, hle⟩ := h.latencies hxs
  have hlimit : ∀ {ps : List Metrics} {zs : List Nat},
      ps.map Metrics.latency = zs.map Cycles.known →
      (∀ p ∈ ps, p.latency.Bounded) → ∀ z ∈ zs, z ≤ Count.limit := by
    intro ps zs hzs hb z hz
    have hmem : Cycles.known z ∈ ps.map Metrics.latency := hzs ▸ List.mem_map_of_mem hz
    obtain ⟨p, hp, heq⟩ := List.mem_map.mp hmem
    exact hb p hp z heq
  have hlength : parts'.length = parts.length := List.Forall₂.length_eq h
  rw [hlength, hm, ← hcount] at hcount'
  rw [latency_composeStages hxs (hlimit hxs hbounded)] at ha
  rw [latency_composeStages hys (hlimit hys hbounded'), hcount']
  by_cases hone : (stagesOf n parts).length ≤ 1
  · rw [if_pos hone] at ha ⊢
    exact ⟨_, Cycles.known.inj ha ▸ count_sum_le hle, rfl⟩
  · rw [if_neg hone] at ha ⊢
    refine ⟨_, ?_, rfl⟩
    rw [← Cycles.known.inj ha]
    have := stageSums_le hbalance hm hxs hys hle
    unfold Count.add
    omega

end Estimator

end DesignSpace
