import Alys.Lib.Maps

/-!
# Columns of a key-value store

A store that maps byte strings to byte strings and keeps several maps at once. Each map is a column,
with a way to write its keys and one to write and read its values. A key that is written in one
column changes that column only, where no key of another column is written the same way.
-/

namespace Alys.Lib

lemma lookup_insert_eq_update {K V : Type} [DecidableEq K] (m : Finmap fun _ : K => V) (k : K)
    (v : V) : (m.insert k v).lookup = Function.update m.lookup k (some v) := by
  funext k'
  by_cases e : k' = k
  · rw [e, Finmap.lookup_insert, Function.update_self]
  · rw [Finmap.lookup_insert_of_ne _ e, Function.update_of_ne e]

lemma update_unit {V : Type} (m : Unit → V) (v : V) : Function.update m () v = fun _ => v :=
  funext fun _ => Function.update_self ..

/-- How the keys and the values of a column are written. -/
structure Column (B K V : Type) where
  key : K → B
  value : V → B
  read : B → Option V
  /-- the keys that can be written -/
  keys : K → Prop
  /-- the values that can be written -/
  values : V → Prop
  key_inj {k k' : K} : keys k → keys k' → key k = key k' → k = k'
  read_value {v : V} : values v → read (value v) = some v

namespace Column

variable {B K V : Type} [DecidableEq B] {column : Column B K V} {db : Finmap fun _ : B => B}
  {m : K → Option V} {k : K} {v : V}

/-- The store has the entries of a map under the keys of a column, and no others. -/
def Holds (column : Column B K V) (db : Finmap fun _ : B => B) (m : K → Option V) : Prop :=
  ∀ k, column.keys k →
    db.lookup (column.key k) = (m k).map column.value ∧ ∀ v, m k = some v → column.values v

lemma holds_empty : column.Holds ∅ fun _ => none := fun _ _ => ⟨Finmap.lookup_empty _, nofun⟩

/-- An entry of the column is written. -/
lemma Holds.insert [DecidableEq K] (h : column.Holds db m) (hk : column.keys k)
    (hv : column.values v) :
    column.Holds (db.insert (column.key k) (column.value v)) (Function.update m k (some v)) := by
  intro k' hk'
  by_cases e : k' = k
  · rw [e, Finmap.lookup_insert, Function.update_self]
    refine ⟨rfl, fun v' e' => ?_⟩
    cases e'
    exact hv
  · rw [Finmap.lookup_insert_of_ne _ fun same => e (column.key_inj hk' hk same),
      Function.update_of_ne e]
    exact h k' hk'

/-- Something else is written. -/
lemma Holds.insert_of_ne {b b' : B} (h : column.Holds db m) (apart : ∀ k, column.key k ≠ b) :
    column.Holds (db.insert b b') m := by
  intro k hk
  rw [Finmap.lookup_insert_of_ne _ (apart k)]
  exact h k hk

/-- What is read is what was written. -/
lemma Holds.read_eq (h : column.Holds db m) (hk : column.keys k) :
    (db.lookup (column.key k)).map column.read = (m k).map some := by
  obtain ⟨hlookup, hvalues⟩ := h k hk
  rw [hlookup, Option.map_map]
  refine Option.map_congr fun v hv => ?_
  exact column.read_value (hvalues v hv)

end Column

end Alys.Lib
