import Mathlib.Data.Finset.Insert

namespace Rarpar

/-- A finite map: a partial function together with the set of its keys. -/
structure Table (κ ν : Type*) where
  lookup : κ → Option ν
  keys : Finset κ
  mem_keys : ∀ k, k ∈ keys ↔ (lookup k).isSome

namespace Table
variable {κ ν : Type*} [DecidableEq κ]

def tabulate (keys : Finset κ) (value : κ → ν) : Table κ ν where
  lookup k := if k ∈ keys then some (value k) else none
  keys := keys
  mem_keys k := by split <;> simp [*]

theorem tabulate_eq_some_iff {keys : Finset κ} {value : κ → ν} {k : κ} {v : ν} :
    (tabulate keys value).lookup k = some v ↔ k ∈ keys ∧ value k = v := by
  rw [tabulate]
  dsimp only
  split_ifs with member
  · exact ⟨fun same => ⟨member, Option.some.inj same⟩, fun both => congrArg some both.2⟩
  · exact ⟨nofun, fun both => absurd both.1 member⟩

end Table
end Rarpar
