import Mathlib.Data.List.Basic
import Mathlib.Tactic.SplitIfs
import Piecework.Store.Schema

/-!
# Migrations

Bringing a database up to date again changes nothing, whatever came of it the first time
(`migrate_again`).  After a success every migration that was newer is in force, and the recorded
version is not older than any of them (`migrate_ok`).

A database only grows (`Grown`), so what a statement has created stays, and carrying it out once
more does nothing.  The induction goes over the migrations.  It carries along which version is
recorded: the versions increase, so the migrations that were applied are just those that are
skipped the second time, and one that fails is met again in the same state.
-/

namespace Piecework

namespace Catalog

variable {c c' c'' : Catalog} {d : Definition} {m : Migration} {version : Int}

/-! ## A database grows -/

/-- Everything in the first database is in the second one, in the same order. -/
structure Grown (c c' : Catalog) : Prop where
  relations : c.relations <+: c'.relations
  indexes : c.indexes <+: c'.indexes
  versions : c.versions <+: c'.versions

theorem Grown.refl (c : Catalog) : Grown c c :=
  ⟨List.prefix_rfl, List.prefix_rfl, List.prefix_rfl⟩

theorem Grown.trans (h : Grown c c') (h' : Grown c' c'') : Grown c c'' :=
  ⟨h.relations.trans h'.relations, h.indexes.trans h'.indexes, h.versions.trans h'.versions⟩

/-- A table or view keeps its name. -/
theorem Grown.relation?_eq_some (h : Grown c c') {name : String} {r : Relation}
    (hr : c.relation? name = some r) : c'.relation? name = some r :=
  h.relations.find?_eq_some hr

/-- What a statement creates is there. -/
def Has (c : Catalog) : Definition → Prop
  | .table name _ => (c.relation? name).isSome
  | .index name _ _ => name ∈ c.indexes

theorem Has.grown (h : c.Has d) (hgrown : Grown c c') : c'.Has d := by
  cases d with
  | table name columns =>
    obtain ⟨r, hr⟩ := Option.isSome_iff_exists.1 h
    exact Option.isSome_iff_exists.2 ⟨r, hgrown.relation?_eq_some hr⟩
  | index name table columns => exact hgrown.indexes.subset h

/-! ## Statements -/

/-- A statement does nothing when what it creates is there. -/
theorem define_of_has (h : c.Has d) : c.define d = .ok c := by
  cases d with
  | table name columns =>
    obtain ⟨r, hr⟩ := Option.isSome_iff_exists.1 h
    rw [define, hr]
  | index name table columns =>
    have hmem : name ∈ c.indexes := h
    rw [define, if_pos (by simpa using hmem)]

/-- A statement that is carried out creates what it is to create, and records no version. -/
theorem define_ok (h : c.define d = .ok c') :
    Grown c c' ∧ c'.Has d ∧ c'.versions = c.versions := by
  cases d with
  | table name columns =>
    rw [define] at h
    split at h
    · rename_i r hr
      cases h
      exact ⟨.refl c, Option.isSome_iff_exists.2 ⟨r, hr⟩, rfl⟩
    · cases h
      refine ⟨⟨List.prefix_append _ _, List.prefix_rfl, List.prefix_rfl⟩, ?_, rfl⟩
      simp [Has, relation?, List.find?_append]
  | index name table columns =>
    rw [define] at h
    split at h
    · rename_i hmem
      cases h
      exact ⟨.refl c, by simpa [Has] using hmem, rfl⟩
    · split at h
      · cases h
      · split at h
        · cases h
        · cases h
          exact ⟨⟨List.prefix_rfl, List.prefix_append _ _, List.prefix_rfl⟩,
            List.mem_append_right _ (List.mem_singleton_self _), rfl⟩

/-- Statements that were carried out until one failed, or all of them, do the same again and
change nothing. -/
theorem defineAll_cases {c c' : Catalog} {ds : List Definition} {e : Option String}
    (h : c.defineAll ds = (e, c')) :
    Grown c c' ∧ c'.versions = c.versions ∧ c'.defineAll ds = (e, c') ∧
      (e = none → ∀ d ∈ ds, c'.Has d) := by
  induction ds generalizing c with
  | nil =>
    cases h
    exact ⟨.refl _, rfl, rfl, fun _ => List.forall_mem_nil _⟩
  | cons d rest ih =>
    rw [defineAll] at h
    split at h
    · rename_i c1 hd
      obtain ⟨hgrown1, hhas, hversions1⟩ := define_ok hd
      obtain ⟨hgrown, hversions, hagain, hall⟩ := ih h
      have hhas' : c'.Has d := hhas.grown hgrown
      refine ⟨hgrown1.trans hgrown, hversions.trans hversions1, ?_, fun hnone => ?_⟩
      · rw [defineAll, define_of_has hhas']
        exact hagain
      · exact List.forall_mem_cons.2 ⟨hhas', hall hnone⟩
    · rename_i e' hd
      cases h
      exact ⟨.refl _, rfl, by rw [defineAll, hd], nofun⟩

/-! ## Versions -/

/-- The largest of the versions, or zero. -/
theorem currentVersion_eq_ok :
    c.currentVersion = .ok version ↔
      (∃ r, c.relation? recordName = some r ∧ r.columns.contains "version" = true) ∧
        version = match c.versions with
          | [] => 0
          | v :: rest => rest.foldl max v := by
  unfold currentVersion
  cases c.relation? recordName with
  | none => simp
  | some r =>
    dsimp only
    split_ifs with hcolumn
    · cases c.versions <;> simp_all [eq_comm]
    · simp_all

/-- A database that has recorded nothing more has the same version. -/
theorem Grown.currentVersion (h : Grown c c') (hversions : c'.versions = c.versions)
    (hversion : c.currentVersion = .ok version) : c'.currentVersion = .ok version := by
  rw [currentVersion_eq_ok] at hversion ⊢
  obtain ⟨⟨r, hr, hcolumn⟩, hlargest⟩ := hversion
  exact ⟨⟨r, h.relation?_eq_some hr, hcolumn⟩, hversions ▸ hlargest⟩

theorem le_foldl_max {v x : Int} {rest : List Int} (h : x ≤ v ∨ x ∈ rest) :
    x ≤ rest.foldl max v := by
  induction rest generalizing v with
  | nil => exact h.resolve_right List.not_mem_nil
  | cons w rest ih =>
    rw [List.foldl_cons]
    apply ih
    rcases h with h | h
    · exact .inl (Int.le_trans h (Int.le_max_left v w))
    · rcases List.mem_cons.1 h with rfl | h
      · exact .inl (Int.le_max_right v x)
      · exact .inr h

/-- A version that is newer than the recorded one becomes the recorded one. -/
theorem recordVersion_ok (h : c.recordVersion m.version = .ok c')
    (hversion : c.currentVersion = .ok version) (hnewer : version < m.version) :
    Grown c c' ∧ c'.currentVersion = .ok m.version := by
  obtain ⟨⟨r, hr, hcolumn⟩, hlargest⟩ := currentVersion_eq_ok.1 hversion
  have hfresh : m.version ∉ c.versions := by
    intro hmem
    cases hversions : c.versions with
    | nil =>
      rw [hversions] at hmem
      exact absurd hmem List.not_mem_nil
    | cons v rest =>
      rw [hversions] at hmem hlargest
      have hle : m.version ≤ rest.foldl max v :=
        le_foldl_max ((List.mem_cons.1 hmem).imp_left Int.le_of_eq)
      dsimp only at hlargest
      omega
  have hadded : c' = { c with versions := c.versions ++ [m.version] } := by
    unfold recordVersion at h
    split at h
    · cases h
    · rw [if_neg (by simpa using hfresh)] at h
      cases h
      rfl
  subst hadded
  refine ⟨⟨List.prefix_rfl, List.prefix_rfl, List.prefix_append _ _⟩, currentVersion_eq_ok.2
    ⟨⟨r, hr, hcolumn⟩, ?_⟩⟩
  dsimp only
  cases hversions : c.versions with
  | nil => rfl
  | cons v rest =>
    rw [hversions] at hlargest
    dsimp only at hlargest
    rw [List.cons_append]
    dsimp only
    rw [List.foldl_append, ← hlargest]
    exact (Int.max_eq_right (Int.le_of_lt hnewer)).symm

/-! ## Migrations -/

/-- A migration that succeeds is in force and becomes the recorded version. -/
theorem apply_ok (h : c.apply m = (.ok (), c')) (hversion : c.currentVersion = .ok version)
    (hnewer : version < m.version) :
    Grown c c' ∧ c'.currentVersion = .ok m.version ∧ ∀ d ∈ m.definitions, c'.Has d := by
  unfold apply at h
  split at h
  · cases h
  · rename_i c1 hdefined
    obtain ⟨hgrown1, hversions, -, hall⟩ := defineAll_cases hdefined
    split at h
    · rename_i c2 hrecorded
      cases h
      obtain ⟨hgrown, hcurrent⟩ :=
        recordVersion_ok hrecorded (hgrown1.currentVersion hversions hversion) hnewer
      exact ⟨hgrown1.trans hgrown, hcurrent, fun d hd => (hall rfl d hd).grown hgrown⟩
    · cases h

/-- A migration that fails records nothing, and fails in the same way again. -/
theorem apply_error {e : StoreError} (h : c.apply m = (.error e, c')) :
    Grown c c' ∧ c'.versions = c.versions ∧ c'.apply m = (.error e, c') := by
  unfold apply at h
  split at h
  · rename_i cause c1 hdefined
    cases h
    obtain ⟨hgrown, hversions, hagain, -⟩ := defineAll_cases hdefined
    exact ⟨hgrown, hversions, by rw [apply, hagain]⟩
  · rename_i c1 hdefined
    obtain ⟨hgrown, hversions, hagain, -⟩ := defineAll_cases hdefined
    split at h
    · cases h
    · rename_i cause hrefused
      cases h
      refine ⟨hgrown, hversions, ?_⟩
      rw [apply, hagain]
      dsimp only
      rw [hrefused]

/-- The migrations of a database, one after the other.  `version` is the one that was recorded at
the beginning, and `recorded` the one that is recorded now. -/
theorem applyNewer_again {ms : List Migration} {result : Except StoreError Unit} {recorded : Int}
    (hsorted : (ms.map Migration.version).Pairwise (· < ·))
    (hrecorded : c.currentVersion = .ok recorded) (hle : version ≤ recorded)
    (hcoming : ∀ m ∈ ms, version < m.version → recorded < m.version)
    (h : c.applyNewer version ms = (result, c')) :
    Grown c c' ∧ ∃ latest, c'.currentVersion = .ok latest ∧ recorded ≤ latest ∧
      c'.applyNewer latest ms = (result, c') ∧
      (result = .ok () → ∀ m ∈ ms, m.version ≤ latest ∧
        (version < m.version → ∀ d ∈ m.definitions, c'.Has d)) := by
  induction ms generalizing c recorded with
  | nil =>
    cases h
    exact ⟨.refl _, recorded, hrecorded, Int.le_refl _, rfl, fun _ => List.forall_mem_nil _⟩
  | cons m rest ih =>
    obtain ⟨hfirst, hrest⟩ := List.pairwise_cons.1 hsorted
    have hlater : ∀ m' ∈ rest, m.version < m'.version := fun m' hm' =>
      hfirst _ (List.mem_map_of_mem hm')
    rw [applyNewer] at h
    split_ifs at h with hnewer
    · have hahead := hcoming m List.mem_cons_self hnewer
      split at h
      · rename_i c1 happly
        obtain ⟨hgrown1, hcurrent, hhas⟩ := apply_ok happly hrecorded hahead
        obtain ⟨hgrown, latest, hlatest, hnext, hagain, hall⟩ :=
          ih hrest hcurrent (Int.le_of_lt hnewer) (fun m' hm' _ => hlater m' hm') h
        refine ⟨hgrown1.trans hgrown, latest, hlatest, by omega, ?_, fun hok => ?_⟩
        · rw [applyNewer, if_neg (by omega)]
          exact hagain
        · exact List.forall_mem_cons.2
            ⟨⟨hnext, fun _ d hd => (hhas d hd).grown hgrown⟩, hall hok⟩
      · rename_i e c1 happly
        cases h
        obtain ⟨hgrown, hversions, hagain⟩ := apply_error happly
        refine ⟨hgrown, recorded, hgrown.currentVersion hversions hrecorded, Int.le_refl _, ?_,
          nofun⟩
        rw [applyNewer, if_pos hahead, hagain]
    · obtain ⟨hgrown, latest, hlatest, hnext, hagain, hall⟩ :=
        ih hrest hrecorded hle (fun m' hm' => hcoming m' (List.mem_cons_of_mem _ hm')) h
      refine ⟨hgrown, latest, hlatest, hnext, ?_, fun hok => ?_⟩
      · rw [applyNewer, if_neg (by omega)]
        exact hagain
      · exact List.forall_mem_cons.2 ⟨⟨by omega, fun hlt => absurd hlt hnewer⟩, hall hok⟩

theorem grown_prepare (c : Catalog) : Grown c c.prepare := by
  unfold prepare
  split
  · exact .refl c
  · exact ⟨List.prefix_append _ _, List.prefix_rfl, List.prefix_rfl⟩

theorem prepare_of_relation {r : Relation} (h : c.relation? recordName = some r) :
    c.prepare = c := by
  rw [prepare, h]

/-- Versions are recorded in a table that is made first. -/
theorem exists_record (c : Catalog) : ∃ r, c.prepare.relation? recordName = some r := by
  unfold prepare
  cases hrecord : c.relation? recordName with
  | some r => exact ⟨r, hrecord⟩
  | none => exact ⟨⟨recordName, recordColumns, false⟩, by
      unfold relation? at hrecord ⊢
      rw [List.find?_append, hrecord]
      rfl⟩

variable {ms : List Migration}

/-- Whatever comes of migrations whose versions increase, nothing is taken away, and to carry them
out again gives the same answer and changes nothing. -/
theorem migrate_again (hsorted : (ms.map Migration.version).Pairwise (· < ·)) (c : Catalog) :
    Grown c (c.migrate ms).2 ∧ (c.migrate ms).2.migrate ms = c.migrate ms := by
  obtain ⟨r, hr⟩ := exists_record c
  cases hcurrent : c.prepare.currentVersion with
  | error e =>
    have hmigrate : c.migrate ms = (.error e, c.prepare) := by
      rw [migrate, hcurrent]
    rw [hmigrate]
    dsimp only
    rw [migrate, prepare_of_relation hr, hcurrent]
    exact ⟨grown_prepare c, rfl⟩
  | ok version =>
    have hmigrate : c.migrate ms = c.prepare.applyNewer version ms := by
      rw [migrate, hcurrent]
    obtain ⟨hgrown, latest, hlatest, -, hagain, -⟩ := applyNewer_again hsorted hcurrent
      (Int.le_refl _) (fun _ _ h => h) (Prod.ext rfl rfl : _ = (_, _))
    rw [hmigrate, migrate, prepare_of_relation (hgrown.relation?_eq_some hr), hlatest]
    exact ⟨(grown_prepare c).trans hgrown, hagain⟩

/-- When migrations succeed, the recorded version is not older than any of them, and what the newer
ones are to create is there. -/
theorem migrate_ok (hsorted : (ms.map Migration.version).Pairwise (· < ·))
    (h : c.migrate ms = (.ok (), c')) :
    ∃ version latest, c.prepare.currentVersion = .ok version ∧ c'.currentVersion = .ok latest ∧
      ∀ m ∈ ms, m.version ≤ latest ∧ (version < m.version → ∀ d ∈ m.definitions, c'.Has d) := by
  unfold migrate at h
  dsimp only at h
  split at h
  · cases h
  · rename_i version hcurrent
    obtain ⟨-, latest, hlatest, -, -, hall⟩ :=
      applyNewer_again hsorted hcurrent (Int.le_refl _) (fun _ _ h => h) h
    exact ⟨version, latest, hcurrent, hlatest, hall rfl⟩

end Catalog

/-- The versions of the program's own migrations increase. -/
theorem Migration.sorted_all : (all.map version).Pairwise (· < ·) := by decide

/-- The program may be started with any database.  When it is started again, its migrations change
nothing and have the same answer. -/
theorem Catalog.migrate_all_again (c : Catalog) :
    (c.migrate Migration.all).2.migrate Migration.all = c.migrate Migration.all :=
  (migrate_again Migration.sorted_all c).2

/-- An empty database gets the tables and their indexes. -/
example : (Catalog.empty.migrate Migration.all).1 = .ok () ∧
    (Catalog.empty.migrate Migration.all).2.versions = [1] := by
  decide +kernel

end Piecework
