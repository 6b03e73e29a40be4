import Std.Data.ExtTreeMap
import Std.Data.ExtTreeSet

/-!
# Sets and maps of names

Names are strings, ordered by code point. Sets and maps over them are equal as soon as they have the
same members, and `toList` lists them in increasing order.
-/

namespace Flowgraph

/-- A finite set of names. -/
abbrev NameSet := Std.ExtTreeSet String compare

/-- A finite map from names to values. -/
abbrev NameMap (α : Type) := Std.ExtTreeMap String α compare

namespace NameSet

/-- The names that occur in some set of a list. -/
def unions (sets : List NameSet) : NameSet :=
  sets.foldl (· ∪ ·) ∅

/-- A name is in the union of a list if it is in one of its sets. -/
theorem mem_unions {sets : List NameSet} {name : String} :
    name ∈ unions sets ↔ ∃ set ∈ sets, name ∈ set := by
  have general : ∀ start : NameSet,
      name ∈ sets.foldl (· ∪ ·) start ↔ name ∈ start ∨ ∃ set ∈ sets, name ∈ set := by
    induction sets with
    | nil => simp
    | cons set rest ih =>
      intro start
      simp [ih, Std.ExtTreeSet.mem_union_iff, or_assoc]
  simpa [unions] using general ∅

end NameSet

end Flowgraph
