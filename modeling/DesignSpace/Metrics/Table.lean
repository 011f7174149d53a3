/-
  Subject:   TABLES OF ESTIMATES by region. A region without an entry is one whose estimate is
             missing or out of date.

  * `Table.insert`, `Table.invalidate`: entries put in and taken out;
  * `Table.snapshot`, `Table.restore`: the entries of some regions, kept and put back, where a
    region without an entry is without one again;
  * `Table.get?_restore_snapshot`: what a table says after that.
-/
import DesignSpace.Metrics.Basic
import DesignSpace.Forest

namespace DesignSpace

/-- The estimates of some regions, by ascending number. -/
structure Table where
  entries : List (RegionId × Estimate) := []
deriving DecidableEq, Repr

namespace Table

/-- The table without entries. -/
def empty : Table := ⟨[]⟩

/-- The estimate of a region. -/
def get? (t : Table) (id : RegionId) : Option Estimate := Keyed.get? t.entries id

/-- The metrics of a region. -/
def metrics? (t : Table) (id : RegionId) : Option Metrics := (t.get? id).map Estimate.metrics

/-- The table with an estimate of a region. -/
def insert (t : Table) (id : RegionId) (e : Estimate) : Table := ⟨Keyed.insert t.entries id e⟩

/-- The table without the estimate of a region. -/
def erase (t : Table) (id : RegionId) : Table := ⟨Keyed.erase t.entries id⟩

/-- The table without the estimates of some regions. -/
def invalidate (t : Table) (ids : List RegionId) : Table := ids.foldl erase t

/-- The number of entries. -/
def size (t : Table) : Nat := t.entries.length

/-- The regions that have entries. -/
def ids (t : Table) : List RegionId := t.entries.map Prod.fst

theorem get?_insert (t : Table) (id j : RegionId) (e : Estimate) :
    (t.insert id e).get? j = if id = j then some e else t.get? j :=
  Keyed.get?_insert t.entries id j e

theorem get?_erase (t : Table) (id j : RegionId) :
    (t.erase id).get? j = if id = j then none else t.get? j :=
  Keyed.get?_erase t.entries id j

/-- Invalidated regions have no entry; all others keep theirs. -/
theorem get?_invalidate (t : Table) (ids : List RegionId) (j : RegionId) :
    (t.invalidate ids).get? j = if j ∈ ids then none else t.get? j := by
  unfold invalidate
  induction ids generalizing t with
  | nil => simp
  | cons id ids ih =>
    rw [List.foldl_cons, ih, get?_erase]
    by_cases h : j ∈ ids
    · simp [h]
    · by_cases hid : id = j
      · simp [hid]
      · simp [h, hid, Ne.symm hid]

/-! ## Snapshots -/

/-- What a table says of some regions. -/
abbrev Snapshot := List (RegionId × Option Estimate)

/-- What a table says of some regions. -/
def snapshot (t : Table) (ids : List RegionId) : Snapshot := ids.map fun id => (id, t.get? id)

/-- The table with one entry of a snapshot put back. -/
def put (t : Table) (e : RegionId × Option Estimate) : Table :=
  match e.2 with
  | some v => t.insert e.1 v
  | none => t.erase e.1

/-- The table with a snapshot put back. -/
def restore (t : Table) (s : Snapshot) : Table := s.foldl put t

theorem get?_put (t : Table) (e : RegionId × Option Estimate) (j : RegionId) :
    (t.put e).get? j = if e.1 = j then e.2 else t.get? j := by
  obtain ⟨id, o⟩ := e
  cases o with
  | none => exact get?_erase t id j
  | some v => exact get?_insert t id j v

/-- **A snapshot put back** says of its regions what it said when it was taken, and leaves all
    others as they are. -/
theorem get?_restore_snapshot (t u : Table) (ids : List RegionId) (j : RegionId) :
    (u.restore (t.snapshot ids)).get? j = if j ∈ ids then t.get? j else u.get? j := by
  unfold restore snapshot
  induction ids generalizing u with
  | nil => simp
  | cons id ids ih =>
    rw [List.map_cons, List.foldl_cons, ih, get?_put]
    by_cases h : j ∈ ids
    · simp [h]
    · by_cases hid : id = j
      · simp [hid]
      · simp [h, hid, Ne.symm hid]

end Table

end DesignSpace
