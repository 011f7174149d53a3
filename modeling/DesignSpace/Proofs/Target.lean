/-
  Subject:   TARGETS THAT A TEXT GIVES keep the rules for targets, and a text gives the same target
             whether or not its search options are looked at.

  * `isPeriod_of_clockPeriod`, `ne_zero_of_positiveCountOf`, `names_of_latenciesOf`,
    `SearchOptions.repeated?_eq_none_iff`: what the readers of single members ensure;
  * `Target.check_eq_ok_iff`, `TargetSpec.check_eq_ok_iff`: the rules, one by one;
  * `Target.check_ofRaw`, `SearchOptions.rules_ofRaw`: members that give a target, and options;
  * `TargetSpec.parse_rules`: **what is accepted keeps the rules, and both readers agree.**
-/
import DesignSpace.Target.Text
import DesignSpace.Proofs.Attempt

namespace DesignSpace

/-! ## 1. Single members -/

/-- The period that a value gives is one that the rules allow. -/
theorem isPeriod_of_clockPeriod {v : Json.Value} {p : Float} (h : clockPeriod v = .ok p) :
    isPeriod p = true := by
  unfold clockPeriod at h
  extract_lets asked at h
  have hasked : ∀ {x : Except TargetError Float}, (x >>= asked) = .ok p → isPeriod p = true := by
    intro x hx
    obtain ⟨q, -, hq⟩ := Attempt.bind_eq_ok_iff.mp hx
    obtain ⟨⟨⟩, hperiod, hq⟩ := Attempt.bind_eq_ok_iff.mp hq
    rw [← Except.ok.inj hq]
    exact demand_eq_ok_iff.mp hperiod
  cases v <;> exact hasked h

theorem ne_zero_of_positiveCountOf {field : String} {v : Json.Value} {n : Nat}
    (h : positiveCountOf field v = .ok n) : n ≠ 0 := by
  obtain ⟨m, -, h⟩ := Attempt.bind_eq_ok_iff.mp h
  obtain ⟨⟨⟩, hm, h⟩ := Attempt.bind_eq_ok_iff.mp h
  rw [← Except.ok.inj h]
  exact bne_iff_ne.mp (demand_eq_ok_iff.mp hm)

/-- A member that may be missing has a property that the default has and every value read. -/
theorem of_memberOr {α : Type} {P : α → Prop} {read : Json.Value → Except TargetError α}
    {default a : α} {member : Option Json.Value} (hdefault : P default)
    (hread : ∀ v a, read v = .ok a → P a) (h : memberOr read default member = .ok a) : P a := by
  cases member with
  | none => exact Except.ok.inj h ▸ hdefault
  | some v => exact hread v a h

/-- Cycle counts are read under the names that they have in the text, and all these are known. -/
theorem names_of_latenciesOf {entries : List (String × Json.Value)} {counts : List (String × Nat)}
    (h : latenciesOf entries = .ok counts) :
    counts.map Prod.fst = entries.map Prod.fst ∧ ∀ e ∈ counts, isLatencyKey e.1 = true := by
  unfold latenciesOf at h
  induction entries generalizing counts with
  | nil =>
      cases h
      exact ⟨rfl, nofun⟩
  | cons e entries ih =>
      rw [List.mapM_cons] at h
      obtain ⟨count, hcount, h⟩ := Attempt.bind_eq_ok_iff.mp h
      obtain ⟨rest, hrest, h⟩ := Attempt.bind_eq_ok_iff.mp h
      obtain ⟨⟨⟩, hkey, hcount⟩ := Attempt.bind_eq_ok_iff.mp hcount
      obtain ⟨n, -, hcount⟩ := Attempt.bind_eq_ok_iff.mp hcount
      obtain ⟨hnames, hknown⟩ := ih hrest
      cases hcount
      cases h
      refine ⟨congrArg _ hnames, List.forall_mem_cons.mpr ⟨demand_eq_ok_iff.mp hkey, hknown⟩⟩

/-- No name comes twice, and none comes that came before. -/
theorem SearchOptions.repeated?_eq_none_iff {before names : List String} :
    repeated? before names = none ↔ names.Nodup ∧ ∀ s ∈ names, s ∉ before := by
  induction names generalizing before with
  | nil => exact ⟨fun _ => ⟨.nil, nofun⟩, fun _ => rfl⟩
  | cons s names ih =>
      unfold repeated?
      by_cases hs : s ∈ before
      · rw [if_pos (List.contains_iff_mem.mpr hs)]
        exact iff_of_false nofun fun h => h.2 s List.mem_cons_self hs
      · rw [if_neg fun h => hs (List.contains_iff_mem.mp h), ih, List.nodup_cons,
          List.forall_mem_cons]
        constructor
        · rintro ⟨hnodup, hfresh⟩
          refine ⟨⟨fun hmem => hfresh s hmem List.mem_cons_self, hnodup⟩, hs,
            fun x hx hbefore => ?_⟩
          exact hfresh x hx (List.mem_cons_of_mem s hbefore)
        · rintro ⟨⟨hmem, hnodup⟩, -, hfresh⟩
          refine ⟨hnodup, fun x hx hbefore => ?_⟩
          rcases List.mem_cons.mp hbefore with rfl | hbefore
          · exact hmem hx
          · exact hfresh x hx hbefore

/-! ## 2. The rules -/

/-- **The rules for a target**, one by one. -/
theorem Target.check_eq_ok_iff {t : Target} : t.check = .ok () ↔
    isPeriod t.clockPeriod = true ∧ (t.portsPerBank ≠ 0 ∧ t.externalPorts ≠ 0) ∧
      ∀ e ∈ t.opLatency, isLatencyKey e.1 = true := by
  unfold check
  rw [demand_bind_eq_ok_iff, demand_bind_eq_ok_iff, Bool.and_eq_true, bne_iff_ne, bne_iff_ne]
  refine and_congr_right fun _ => and_congr_right fun _ => ?_
  cases hfind : t.opLatency.find? fun e => !isLatencyKey e.1 with
  | none => exact iff_of_true rfl fun e he => by simpa using List.find?_eq_none.mp hfind e he
  | some e =>
      refine iff_of_false nofun fun hknown => ?_
      have hunknown := List.find?_some hfind
      rw [hknown e (List.mem_of_find?_eq_some hfind)] at hunknown
      cases hunknown

/-- The rules for a target with its options. -/
theorem TargetSpec.check_eq_ok_iff {s : TargetSpec} : s.check = .ok () ↔
    s.target.check = .ok () ∧ s.options.candidateBudget ≠ some 0 := by
  unfold check
  rw [Attempt.bind_eq_ok_iff, demand_eq_ok_iff, bne_iff_ne]
  exact ⟨fun ⟨⟨⟩, h⟩ => h, fun h => ⟨(), h⟩⟩

/-! ## 3. All members -/

/-- **A target that members give keeps the rules.** -/
theorem Target.check_ofRaw {r : RawTarget} {t : Target} (h : ofRaw r = .ok t) :
    t.check = .ok () := by
  obtain ⟨clockPeriod, hclock, h⟩ := Attempt.bind_eq_ok_iff.mp h
  obtain ⟨budgets, -, h⟩ := Attempt.bind_eq_ok_iff.mp h
  obtain ⟨latencyBudget, -, h⟩ := Attempt.bind_eq_ok_iff.mp h
  obtain ⟨opLatency, hlatency, h⟩ := Attempt.bind_eq_ok_iff.mp h
  obtain ⟨portsPerBank, hbank, h⟩ := Attempt.bind_eq_ok_iff.mp h
  obtain ⟨externalPorts, hexternal, h⟩ := Attempt.bind_eq_ok_iff.mp h
  cases h
  refine check_eq_ok_iff.mpr ⟨?_, ⟨?_, ?_⟩, (names_of_latenciesOf hlatency).2⟩
  · exact of_memberOr (P := fun p => isPeriod p = true) (by decide +kernel)
      (fun v p => isPeriod_of_clockPeriod) hclock
  · exact of_memberOr (P := (· ≠ 0)) (by decide) (fun v n => ne_zero_of_positiveCountOf) hbank
  · exact of_memberOr (P := (· ≠ 0)) (by decide) (fun v n => ne_zero_of_positiveCountOf) hexternal

namespace SearchOptions

/-- The order of levels that is chosen. -/
def strategyOf : Option String → Except TargetError Strategy
  | none => .ok .bottomUp
  | some s =>
    match Strategy.ofName? s with
    | some x => .ok x
    | none => .error (.invalid "dse.strategy" (.strategy s))

/-- The operators that come first. -/
def priorityOf : Option (List String) → Except TargetError (List String)
  | none => .ok ({} : SearchOptions).priority
  | some names =>
    match repeated? [] names with
    | some s => .error (.invalid "dse.operator_priority" (.repeatedOperator s))
    | none => .ok names

/-- Options are read member by member. -/
theorem ofRaw_eq (r : RawOptions) : ofRaw r = do
    let strategy ← strategyOf r.strategy
    let priority ← priorityOf r.priority
    let candidateBudget ←
      memberOr (fun v => return some (← positiveCountOf "dse.candidate_budget" v)) none
        r.candidateBudget
    let maxBacktracks ← memberOr (countOf "dse.max_backtracks") 8 r.maxBacktracks
    return { strategy, priority, candidateBudget, maxBacktracks } := by
  obtain ⟨strategy, priority, budget, backtracks⟩ := r
  unfold ofRaw strategyOf priorityOf
  cases strategy with
  | none =>
      cases priority with
      | none => rfl
      | some names =>
          dsimp only
          cases repeated? [] names <;> rfl
  | some s =>
      dsimp only
      cases Strategy.ofName? s with
      | none => rfl
      | some x =>
          cases priority with
          | none => rfl
          | some names =>
              dsimp only
              cases repeated? [] names <;> rfl

theorem nodup_of_priorityOf {member : Option (List String)} {names : List String}
    (h : priorityOf member = .ok names) : names.Nodup := by
  cases member with
  | none =>
      cases h
      decide
  | some given =>
      unfold priorityOf at h
      dsimp only at h
      cases hrepeated : repeated? [] given with
      | some s =>
          rw [hrepeated] at h
          cases h
      | none =>
          rw [hrepeated] at h
          cases h
          exact (repeated?_eq_none_iff.mp hrepeated).1

/-- **Search options that members give** name no operator twice, and their budget is not zero. -/
theorem rules_ofRaw {r : RawOptions} {o : SearchOptions} (h : ofRaw r = .ok o) :
    o.priority.Nodup ∧ o.candidateBudget ≠ some 0 := by
  rw [ofRaw_eq] at h
  obtain ⟨strategy, -, h⟩ := Attempt.bind_eq_ok_iff.mp h
  obtain ⟨priority, hpriority, h⟩ := Attempt.bind_eq_ok_iff.mp h
  obtain ⟨candidateBudget, hbudget, h⟩ := Attempt.bind_eq_ok_iff.mp h
  obtain ⟨maxBacktracks, -, h⟩ := Attempt.bind_eq_ok_iff.mp h
  cases h
  refine ⟨nodup_of_priorityOf hpriority, ?_⟩
  refine of_memberOr (P := fun b => b ≠ some 0) (Option.some_ne_none 0).symm (fun v b hb => ?_)
    hbudget
  obtain ⟨n, hn, hb⟩ := Attempt.bind_eq_ok_iff.mp hb
  cases hb
  exact fun hzero => ne_zero_of_positiveCountOf hn (Option.some.inj hzero)

end SearchOptions

namespace TargetSpec

/-- Members give a target with options where they give the target, and the options if there are
    any. -/
theorem ofRaw_eq_ok_iff {r : RawTarget} {s : TargetSpec} : ofRaw r = .ok s ↔
    Target.ofRaw r = .ok s.target ∧
      (r.search = none ∧ s.options = {} ∨
        ∃ o, r.search = some o ∧ SearchOptions.ofRaw o = .ok s.options) := by
  unfold ofRaw
  rw [Attempt.bind_eq_ok_iff]
  obtain ⟨target, options⟩ := s
  cases hsearch : r.search with
  | none =>
      constructor
      · rintro ⟨t, ht, h⟩
        cases h
        exact ⟨ht, .inl ⟨rfl, rfl⟩⟩
      · rintro ⟨ht, ⟨-, rfl⟩ | ⟨_, ⟨⟩, -⟩⟩
        exact ⟨target, ht, rfl⟩
  | some o =>
      constructor
      · rintro ⟨t, ht, h⟩
        obtain ⟨x, hx, h⟩ := Attempt.bind_eq_ok_iff.mp h
        cases h
        exact ⟨ht, .inr ⟨o, rfl, hx⟩⟩
      · rintro ⟨ht, ⟨⟨⟩, -⟩ | ⟨_, ⟨⟩, ho⟩⟩
        exact ⟨target, ht, Attempt.bind_eq_ok_iff.mpr ⟨options, ho, rfl⟩⟩

/-- What members give keeps the rules, and names no operator twice. -/
theorem rules_ofRaw {r : RawTarget} {s : TargetSpec} (h : ofRaw r = .ok s) :
    s.check = .ok () ∧ s.options.priority.Nodup := by
  obtain ⟨htarget, hoptions⟩ := ofRaw_eq_ok_iff.mp h
  have hrules : s.options.priority.Nodup ∧ s.options.candidateBudget ≠ some 0 := by
    rcases hoptions with ⟨-, hdefault⟩ | ⟨o, -, ho⟩
    · rw [hdefault]
      decide
    · exact SearchOptions.rules_ofRaw ho
  exact ⟨check_eq_ok_iff.mpr ⟨Target.check_ofRaw htarget, hrules.2⟩, hrules.1⟩

/-! ## 4. Texts -/

/-- **Targets in texts.** A text that gives a target with search options gives one that keeps the
    rules and names no operator twice, and it gives the same target without the options. A text that
    gives no target gives none with options either, for the same reason. -/
theorem parse_rules (text : String) :
    (∀ s, parse text = .ok s →
      s.check = .ok () ∧ s.options.priority.Nodup ∧ Target.parse text = .ok s.target) ∧
    ∀ error, Target.parse text = .error error → parse text = .error error := by
  constructor
  · intro s h
    obtain ⟨raw, hraw, h⟩ := Attempt.bind_eq_ok_iff.mp h
    have hs := Attempt.mapError_eq_ok_iff.mp h
    obtain ⟨hcheck, hnodup⟩ := rules_ofRaw hs
    refine ⟨hcheck, hnodup, Attempt.bind_eq_ok_iff.mpr ⟨raw, hraw, ?_⟩⟩
    exact Attempt.mapError_eq_ok_iff.mpr (ofRaw_eq_ok_iff.mp hs).1
  · intro error h
    rcases Attempt.bind_eq_error_iff.mp h with hraw | ⟨raw, hraw, h⟩
    · exact Attempt.bind_eq_error_iff.mpr (.inl hraw)
    · obtain ⟨cause, hcause, rfl⟩ := Attempt.mapError_eq_error_iff.mp h
      refine Attempt.bind_eq_error_iff.mpr (.inr ⟨raw, hraw, ?_⟩)
      -- the target is looked at before the options
      exact Attempt.mapError_eq_error_iff.mpr
        ⟨cause, Attempt.bind_eq_error_iff.mpr (.inl hcause), rfl⟩

/-- A clock given as a frequency, ports written as a double, and search options. -/
def paced : String :=
  "\x7b\"clock_period\":\"200MHz\",\"op_latency\":\x7b\"load\":3\x7d," ++
    "\"memory_ports_per_bank\":4.0,\"dse\":\x7b\"candidate_budget\":3," ++
    "\"operator_priority\":[\"unroll\",\"pipeline\"]\x7d\x7d"

/-- Cycles of an operation that is not known, and a budget of no candidates. -/
def mistaken : String :=
  "\x7b\"op_latency\":\x7b\"warp\":1\x7d,\"dse\":\x7b\"candidate_budget\":0\x7d\x7d"

/-- Four ports and two operators are read of the one text; the other one is refused for the
    operation, with and without its options. -/
theorem parse_rules_paced :
    (∃ s, parse paced = .ok s ∧ s.options.priority = ["unroll", "pipeline"] ∧
      s.check = .ok () ∧ ∃ t, Target.parse paced = .ok t ∧ t.portsPerBank = 4) ∧
    ∃ error, Target.parse mistaken = .error error ∧ parse mistaken = .error error ∧
      error.message = "Unknown operation 'warp' in op_latency" := by
  have hpaced : (parse paced).toOption.map (fun s =>
      (s.options.priority, s.target.portsPerBank)) = some (["unroll", "pipeline"], 4) := by
    decide +kernel
  have hmistaken : (match Target.parse mistaken with
      | .ok _ => none
      | .error error => some error.message) = some "Unknown operation 'warp' in op_latency" := by
    decide +kernel
  constructor
  · cases hparse : parse paced with
    | error _ =>
        rw [hparse] at hpaced
        cases hpaced
    | ok s =>
        rw [hparse] at hpaced
        obtain ⟨hpriority, hports⟩ := Prod.mk.inj (Option.some.inj hpaced)
        obtain ⟨hcheck, -, htarget⟩ := (parse_rules paced).1 s hparse
        exact ⟨s, rfl, hpriority, hcheck, s.target, htarget, hports⟩
  · cases hparse : Target.parse mistaken with
    | ok _ =>
        rw [hparse] at hmistaken
        cases hmistaken
    | error error =>
        rw [hparse] at hmistaken
        exact ⟨error, rfl, (parse_rules mistaken).2 error hparse, Option.some.inj hmistaken⟩

end TargetSpec

end DesignSpace
