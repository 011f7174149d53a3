/-
  Subject:   THE FRONTIER IS EXACT. It holds what no point dominates, each outcome once, and
             whatever is left out has a point on it that is not slower and not larger.

  * `Point.Covers`: not slower and not larger;
  * `Point.dominates_iff`: to dominate is to cover with another outcome, at a known latency;
  * `Point.exists_covers`: **above each point there is one that none dominates**;
  * `exists_mem_frontier`: **the frontier covers all points of known latency**;
  * `frontier_exact`: **the frontier is what none dominates, each outcome once, and no less.**
-/
import DesignSpace.Proofs.Estimate.Compose
import DesignSpace.Search.Frontier

namespace DesignSpace

/-! ## 1. Points that cover others -/

/-- The counts of all kinds, added up without a limit. -/
def Resources.size (r : Resources) : Nat := (ResourceKind.all.map r.get).sum

/-- Fewer of some kind and more of none. -/
theorem Resources.eq_or_size_lt {a b : Resources} (h : ∀ k, a.get k ≤ b.get k) :
    a = b ∨ a.size < b.size := by
  have hcompute := h .computeUnit
  have hports := h .memoryPort
  have hstorage := h .storageElement
  have hcontrol := h .controlUnit
  obtain ⟨_, _, _, _⟩ := a
  obtain ⟨_, _, _, _⟩ := b
  simp only [get, size, ResourceKind.all, List.map_cons, List.map_nil, List.sum_cons,
    List.sum_nil, mk.injEq] at *
  omega

theorem Cycles.isSome_toOption_iff {c : Cycles} :
    c.toOption.isSome = true ↔ ∃ n, c = .known n := by
  cases c <;> simp [toOption]

/-- A point whose latency is known if that of the other one is, and is then not larger, and that
    needs no more hardware of any kind. -/
structure Point.Covers (q p : Point) : Prop where
  latency : q.latency.AtMost p.latency
  resources : ∀ k, q.resources.get k ≤ p.resources.get k

namespace Point

variable {p q r : Point} {points : List Point}

theorem Covers.refl (p : Point) : p.Covers p := ⟨.refl _, fun _ => Nat.le_refl _⟩

theorem Covers.trans (h : r.Covers q) (h' : q.Covers p) : r.Covers p :=
  ⟨h.latency.trans h'.latency, fun k => Nat.le_trans (h.resources k) (h'.resources k)⟩

/-- **To dominate is to cover with another outcome**, where latencies are known. -/
theorem dominates_iff : q.dominates p = true ↔
    q.latency.toOption.isSome = true ∧ p.latency.toOption.isSome = true ∧ q.Covers p ∧
      q.sameOutcome p = false := by
  unfold dominates sameOutcome
  cases hq : q.latency with
  | unknown => simp [Cycles.toOption]
  | known m =>
      cases hp : p.latency with
      | unknown => simp [Cycles.toOption]
      | known n =>
          have hcovers : q.Covers p ↔ m ≤ n ∧ ∀ k, q.resources.get k ≤ p.resources.get k := by
            refine ⟨fun h => ⟨?_, h.resources⟩, fun h => ⟨fun n' hn' => ?_, h.2⟩⟩
            · obtain ⟨k, hk, hqk⟩ := h.latency n hp
              rw [hq] at hqk
              exact Cycles.known.inj hqk ▸ hk
            · rw [hp] at hn'
              exact ⟨m, Cycles.known.inj hn' ▸ h.1, hq⟩
          rw [hcovers, ← Resources.fitsWithin_iff]
          by_cases hr : q.resources = p.resources
          · simp +contextual [Cycles.toOption, hr, Nat.lt_iff_le_and_ne]
          · simp [Cycles.toOption, hr]

theorem sameOutcome_iff : q.sameOutcome p = true ↔
    q.latency = p.latency ∧ q.resources = p.resources := by
  simp [sameOutcome]

/-! What dominates a point, and what has the same outcome, depends on the outcome only. -/

theorem dominates_congr (h : p.sameOutcome q = true) (r : Point) :
    r.dominates p = r.dominates q := by
  obtain ⟨hlatency, hresources⟩ := sameOutcome_iff.mp h
  unfold dominates
  rw [hlatency, hresources]

theorem sameOutcome_congr (h : p.sameOutcome q = true) (r : Point) :
    r.sameOutcome p = r.sameOutcome q := by
  obtain ⟨hlatency, hresources⟩ := sameOutcome_iff.mp h
  unfold sameOutcome
  rw [hlatency, hresources]

/-! ## 2. What none dominates -/

/-- Cycles and counts of hardware, added up. -/
def weight (p : Point) : Nat := p.latency.toOption.getD 0 + p.resources.size

/-- What dominates a point weighs less. -/
theorem weight_lt_of_dominates (h : q.dominates p = true) : q.weight < p.weight := by
  obtain ⟨-, hp, hcovers, hother⟩ := dominates_iff.mp h
  obtain ⟨n, hn⟩ := Cycles.isSome_toOption_iff.mp hp
  obtain ⟨m, hmn, hm⟩ := hcovers.latency n hn
  have hq' : q.weight = m + q.resources.size := by rw [weight, hm]; rfl
  have hp' : p.weight = n + p.resources.size := by rw [weight, hn]; rfl
  rw [hq', hp']
  rcases Resources.eq_or_size_lt hcovers.resources with heq | hlt
  · have hne : m ≠ n := by
      intro hmn
      subst hmn
      rw [sameOutcome_iff.mpr ⟨hm.trans hn.symm, heq⟩] at hother
      cases hother
    rw [heq]
    omega
  · omega

/-- **Above each point there is one that none dominates.** -/
theorem exists_covers (hp : p ∈ points) :
    ∃ q ∈ points, q.Covers p ∧ ∀ r ∈ points, r.dominates q = false := by
  induction hw : p.weight using Nat.strong_induction_on generalizing p with
  | _ w ih =>
      rcases Classical.em (∃ r ∈ points, r.dominates p = true) with ⟨r, hr, hdominates⟩ | hnone
      · have hcovers := (dominates_iff.mp hdominates).2.2.1
        obtain ⟨q, hq, hqr, htop⟩ := ih r.weight (hw ▸ weight_lt_of_dominates hdominates) hr rfl
        exact ⟨q, hq, hqr.trans hcovers, htop⟩
      · exact ⟨p, hp, .refl p, fun r hr => Bool.eq_false_iff.mpr fun h => hnone ⟨r, hr, h⟩⟩

end Point

/-! ## 3. The frontier -/

/-- Each outcome of a list has a first point. -/
theorem exists_first_sameOutcome {points : List Point} {q : Point} (hq : q ∈ points) :
    ∃ first before after, points = before ++ first :: after ∧ first.sameOutcome q = true ∧
      ∀ r ∈ before, r.sameOutcome q = false := by
  have hself : q.sameOutcome q = true := Point.sameOutcome_iff.mpr ⟨rfl, rfl⟩
  obtain ⟨first, hfirst⟩ := Option.isSome_iff_exists.mp
    (List.find?_isSome.mpr ⟨q, hq, hself⟩ : (points.find? (·.sameOutcome q)).isSome = true)
  obtain ⟨hsame, before, after, hpoints, hbefore⟩ := List.find?_eq_some_iff_append.mp hfirst
  exact ⟨first, before, after, hpoints, hsame, fun r hr => by simpa using hbefore r hr⟩

/-- **The frontier covers all points of known latency**: for each of them some point that is kept
    is not slower and needs no more hardware of any kind. -/
theorem exists_mem_frontier {points : List Point} {p : Point} (hp : p ∈ points)
    (hknown : p.latency.toOption.isSome = true) : ∃ q ∈ frontier points, q.Covers p := by
  obtain ⟨q, hq, hcovers, htop⟩ := Point.exists_covers hp
  obtain ⟨first, before, after, hpoints, hsame, hbefore⟩ := exists_first_sameOutcome hq
  obtain ⟨hlatency, hresources⟩ := Point.sameOutcome_iff.mp hsame
  have hfirst : first.Covers p :=
    ⟨hlatency ▸ hcovers.latency, fun k => hresources ▸ hcovers.resources k⟩
  obtain ⟨n, hn⟩ := Cycles.isSome_toOption_iff.mp hknown
  obtain ⟨m, -, hm⟩ := hfirst.latency n hn
  refine ⟨first, (mem_frontierFrom_iff _ _ _ _).mpr ⟨before, after, hpoints, ?_⟩, hfirst⟩
  have htop : points.any (·.dominates first) = false := List.any_eq_false.mpr fun r hr => by
    rw [Point.dominates_congr hsame, htop r hr]
    exact Bool.false_ne_true
  have hbefore : (before.reverse ++ []).any (·.sameOutcome first) = false :=
    List.any_eq_false.mpr fun r hr => by
      rw [Point.sameOutcome_congr hsame, hbefore r (by simpa using hr)]
      exact Bool.false_ne_true
  unfold onFrontier
  rw [Cycles.isSome_toOption_iff.mpr ⟨m, hm⟩, htop, hbefore]
  rfl

/-! ## 4. The frontier is exact -/

theorem onFrontier_iff {all earlier : List Point} {p : Point} :
    onFrontier all earlier p = true ↔ (∃ n, p.latency = .known n) ∧
      (∀ q ∈ all, q.dominates p = false) ∧ ∀ q ∈ earlier, q.sameOutcome p = false := by
  simp [onFrontier, Cycles.isSome_toOption_iff, and_assoc]

/-- No outcome is kept twice. -/
theorem pairwise_frontierFrom (all earlier points : List Point) :
    (frontierFrom all earlier points).Pairwise fun p q => p.sameOutcome q = false := by
  induction points generalizing earlier with
  | nil => exact .nil
  | cons p rest ih =>
      unfold frontierFrom
      split
      · refine .cons (fun q hq => ?_) (ih _)
        obtain ⟨before, -, -, hq⟩ := (mem_frontierFrom_iff _ _ _ _).mp hq
        exact (onFrontier_iff.mp hq).2.2 p (List.mem_append_right _ List.mem_cons_self)
      · exact ih _

/-- Points of known latency that none dominates, with an outcome of their own each, all stay. -/
theorem frontierFrom_eq_self {all earlier points : List Point}
    (hkept : ∀ p ∈ points, (∃ n, p.latency = .known n) ∧ ∀ q ∈ all, q.dominates p = false)
    (hearlier : ∀ q ∈ earlier, ∀ p ∈ points, q.sameOutcome p = false)
    (hapart : points.Pairwise fun p q => p.sameOutcome q = false) :
    frontierFrom all earlier points = points := by
  induction points generalizing earlier with
  | nil => rfl
  | cons p rest ih =>
      obtain ⟨hp, hrest⟩ := List.pairwise_cons.mp hapart
      obtain ⟨hknown, htop⟩ := hkept p List.mem_cons_self
      have hstands : onFrontier all earlier p = true :=
        onFrontier_iff.mpr ⟨hknown, htop, fun q hq => hearlier q hq p List.mem_cons_self⟩
      have htail : frontierFrom all (p :: earlier) rest = rest := by
        refine ih (fun q hq => hkept q (List.mem_cons_of_mem _ hq)) ?_ hrest
        rintro q (_ | ⟨_, hq⟩) r hr
        · exact hp r hr
        · exact hearlier q hq r (List.mem_cons_of_mem _ hr)
      rw [frontierFrom, if_pos hstands, htail]

theorem mem_frontier {points : List Point} {p : Point} (hp : p ∈ frontier points) :
    (∃ n, p.latency = .known n) ∧ ∀ q ∈ points, q.dominates p = false := by
  obtain ⟨_, _, _, hp⟩ := (mem_frontierFrom_iff _ _ _ _).mp hp
  exact ⟨(onFrontier_iff.mp hp).1, (onFrontier_iff.mp hp).2.1⟩

/-- The frontier is its own frontier. -/
theorem frontier_idem (points : List Point) : frontier (frontier points) = frontier points := by
  refine frontierFrom_eq_self (fun p hp => ?_) nofun (pairwise_frontierFrom _ _ _)
  obtain ⟨hknown, htop⟩ := mem_frontier hp
  exact ⟨hknown, fun q hq => htop q ((frontierFrom_sublist _ _ _).mem hq)⟩

/-- **The frontier is exact**: it keeps the order of the points; each point on it is of known
    latency and dominated by none; no two of them agree in latency and hardware; each point of
    known latency has one on it that is not slower and needs no more of any kind; and taken again,
    it stays. -/
theorem frontier_exact (points : List Point) :
    (frontier points).Sublist points ∧
      (∀ p ∈ frontier points,
        (∃ n, p.latency = .known n) ∧ ∀ q ∈ points, q.dominates p = false) ∧
      (frontier points).Pairwise
        (fun p q => ¬(p.latency = q.latency ∧ p.resources = q.resources)) ∧
      (∀ p ∈ points, ∀ n, p.latency = .known n → ∃ q ∈ frontier points,
        (∃ m ≤ n, q.latency = .known m) ∧ ∀ k, q.resources.get k ≤ p.resources.get k) ∧
      frontier (frontier points) = frontier points := by
  refine ⟨frontierFrom_sublist _ _ _, fun p hp => mem_frontier hp, ?_, fun p hp n hn => ?_,
    frontier_idem points⟩
  · refine (pairwise_frontierFrom points [] points).imp fun {p q} hother hsame => ?_
    rw [Point.sameOutcome_iff.mpr hsame] at hother
    cases hother
  · have hknown := Cycles.isSome_toOption_iff.mpr ⟨n, hn⟩
    obtain ⟨q, hq, hcovers⟩ := exists_mem_frontier hp hknown
    exact ⟨q, hq, hcovers.latency n hn, hcovers.resources⟩

end DesignSpace
