import VersionRules.Qualifier.Value

/-!
# Candidate versions

A candidate is a version string together with the qualifier values it is tagged with. It may have
several values of one qualifier, for instance when it was built for two products; they are kept in
the order in which they were recorded.

The values are a function of the qualifier, so two candidates are equal exactly when they have the
same version string and the same values of every qualifier in the same order.

## Main definitions

* `Candidate` — a version string and its tags
* `Candidate.add` — records one more value
* `Candidate.has` — whether a value is recorded
* `Candidate.tags` — the recorded values in qualifier order
-/

namespace VersionRules

/-- A version string and the values recorded for each qualifier. -/
@[ext]
structure Candidate where
  version : String
  values : Qualifier → List (List String)

namespace Candidate

/-- A candidate without tags. -/
def ofVersion (version : String) : Candidate :=
  ⟨version, fun _ => []⟩

/-- Records one more value of a qualifier. -/
def add (v : Candidate) (q : Qualifier) (value : List String) : Candidate :=
  { v with values := fun r => if r = q then v.values r ++ [value] else v.values r }

@[simp]
theorem version_add (v : Candidate) (q : Qualifier) (value : List String) :
    (v.add q value).version = v.version :=
  rfl

theorem values_add (v : Candidate) (q r : Qualifier) (value : List String) :
    (v.add q value).values r = if r = q then v.values r ++ [value] else v.values r :=
  rfl

/-- Whether one of the recorded values of `q` counts as the same as `value`. -/
def has (v : Candidate) (q : Qualifier) (value : List String) : Bool :=
  (v.values q).any fun recorded => q.sameValue recorded value

/-- The qualifiers with a recorded value, in qualifier order, and their values. -/
def tags (v : Candidate) : List (Qualifier × List (List String)) :=
  (Qualifier.all.map fun q => (q, v.values q)).filter fun entry => !entry.2.isEmpty

/-- Whether two candidates are equal. -/
def same (v w : Candidate) : Bool :=
  v.version == w.version && Qualifier.all.all fun q => v.values q == w.values q

theorem same_iff {v w : Candidate} : v.same w ↔ v = w := by
  constructor
  · intro h
    simp only [same, Bool.and_eq_true, beq_iff_eq, List.all_eq_true] at h
    exact Candidate.ext h.1 (funext fun q => h.2 q q.mem_all)
  · rintro rfl
    simp [same]

instance : DecidableEq Candidate := fun v w =>
  decidable_of_iff (v.same w) same_iff

end Candidate

end VersionRules
