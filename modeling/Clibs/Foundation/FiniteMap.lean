import Mathlib.Data.List.Nodup
import Mathlib.Logic.Function.Basic
import Mathlib.Tactic.Common

namespace Clibs

/-!
# Lists of entries and the finite maps they stand for

A container that stores each key once stands for the map from its keys to their
values.  `Binds entries map` says so of the list of its entries, in any order.
-/

/-- The entries are the graph of the map, and each key is listed once. -/
structure Binds
    {Key Value : Type}
    (entries : List (Key × Value))
    (map : Key → Option Value) : Prop where
  distinct : (entries.map Prod.fst).Nodup
  bound : ∀ key value, map key = some value ↔ (key, value) ∈ entries

namespace Binds

variable {Key Value : Type}
  {entries others : List (Key × Value)}
  {map : Key → Option Value}
  {key : Key}
  {value : Value}

/-- Without entries no key is bound. -/
theorem nil :
    Binds ([] : List (Key × Value)) fun _ => none where
  distinct := List.nodup_nil
  bound _ _ := by simp

/-- The order of the entries does not matter. -/
theorem perm
    (binds : Binds entries map)
    (same : others.Perm entries) :
    Binds others map where
  distinct := (same.map Prod.fst).nodup_iff.mpr binds.distinct
  bound key value := by
    rw [binds.bound key value, same.mem_iff]

/-- A key is unbound exactly when it has no entry. -/
theorem unbound
    (binds : Binds entries map) :
    map key = none ↔ ∀ value, (key, value) ∉ entries := by
  rw [Option.eq_none_iff_forall_ne_some]
  exact forall_congr' fun value => not_congr (binds.bound key value)

/-- No entry has an unbound key. -/
theorem notMem_keys
    (binds : Binds entries map)
    (isUnbound : map key = none) :
    key ∉ entries.map Prod.fst := by
  intro member
  obtain ⟨⟨same, value⟩, isEntry, rfl⟩ := List.mem_map.mp member
  exact binds.unbound.mp isUnbound value isEntry

/-- Without entries the map is empty. -/
theorem eq_empty
    (binds : Binds [] map) :
    map = fun _ => none := by
  funext key
  exact binds.unbound.mpr fun value member => List.not_mem_nil member

/-- Two lists of entries of one map have the same entries. -/
theorem unique
    (binds : Binds entries map)
    (same : Binds others map) :
    entries.Perm others := by
  apply (List.perm_ext_iff_of_nodup (List.Nodup.of_map _ binds.distinct)
    (List.Nodup.of_map _ same.distinct)).mpr
  rintro ⟨key, value⟩
  rw [← binds.bound key value, same.bound key value]

/-- A new entry binds its key. -/
theorem cons
    [DecidableEq Key]
    (binds : Binds entries map)
    (isUnbound : map key = none)
    (value : Value) :
    Binds ((key, value) :: entries)
      (Function.update map key (some value)) where
  distinct :=
    List.nodup_cons.mpr ⟨binds.notMem_keys isUnbound, binds.distinct⟩
  bound other otherValue := by
    by_cases same : other = key
    · subst same
      have absent := binds.unbound.mp isUnbound otherValue
      simp [absent, eq_comm]
    · simp [same, binds.bound other otherValue]

/-- The map binds the key of an entry to its value. -/
theorem head
    (binds : Binds ((key, value) :: entries) map) :
    map key = some value :=
  (binds.bound key value).mpr (by simp)

/-- Without an entry its key is unbound and the others are as they were. -/
theorem tail
    [DecidableEq Key]
    (binds : Binds ((key, value) :: entries) map) :
    Binds entries (Function.update map key none) where
  distinct := (List.nodup_cons.mp binds.distinct).2
  bound other otherValue := by
    have absent : key ∉ entries.map Prod.fst :=
      (List.nodup_cons.mp binds.distinct).1
    by_cases same : other = key
    · subst same
      have noEntry : (other, otherValue) ∉ entries :=
        fun member => absent (List.mem_map_of_mem (f := Prod.fst) member)
      simp [noEntry]
    · simp [binds.bound other otherValue, same]

end Binds

end Clibs
