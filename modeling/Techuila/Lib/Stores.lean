import Mathlib.Data.Set.Function
import Mathlib.Logic.Function.Basic
import Mathlib.Order.Interval.Set.Defs
import Techuila.Lib.ArrayWrites

/-!
# Stores to consecutive places of a memory

A memory has a value at every place, and `address` gives the places in order. They may repeat, as
machine addresses do that wrap around.

* `storesAt`: stores of a list of values from a place on. `storesAt_append`: of one list behind
  another one.
* `run`: what stores leave in a memory, the last one to a place in it.
* `load_storesAt`: what is loaded then, where no place repeats.
-/

namespace Techuila
namespace Stores

variable {ι β : Type} (address : ℕ → ι) {memory : ι → β} {values : List β} {i n : ℕ}

/-- The values at the places from the `i`-th on. -/
def storesAt (i : ℕ) : List β → List (ι × β)
  | [] => []
  | b :: values => (address i, b) :: storesAt (i + 1) values

/-- The values at the first `n` places. -/
def load (memory : ι → β) (n : ℕ) : List β := (List.range n).map fun i => memory (address i)

@[simp] theorem length_load : (load address memory n).length = n := by simp [load]

theorem storesAt_append (i : ℕ) (values values' : List β) : storesAt address i (values ++ values') =
    storesAt address i values ++ storesAt address (i + values.length) values' := by
  induction values generalizing i with
  | nil => rfl
  | cons b values ih =>
    rw [List.cons_append, storesAt, storesAt, ih, List.length_cons, Nat.add_right_comm,
      ← Nat.add_assoc]
    rfl

theorem mem_storesAt {s : ι × β} (h : s ∈ storesAt address i values) :
    ∃ j, i ≤ j ∧ j < i + values.length ∧ s.1 = address j := by
  induction values generalizing i with
  | nil => cases h
  | cons b values ih =>
    rw [List.length_cons]
    rcases List.mem_cons.mp h with rfl | h
    · exact ⟨i, Nat.le_refl i, by omega, rfl⟩
    · obtain ⟨j, hle, hlt, he⟩ := ih h
      exact ⟨j, by omega, by omega, he⟩

variable [DecidableEq ι]

def run (stores : List (ι × β)) (memory : ι → β) : ι → β :=
  stores.foldl (fun memory s => Function.update memory s.1 s.2) memory

theorem run_append (stores stores' : List (ι × β)) (memory : ι → β) :
    run (stores ++ stores') memory = run stores' (run stores memory) :=
  List.foldl_append ..

theorem load_update (hinj : Set.InjOn address (Set.Iio n)) (hi : i < n) (b : β) :
    load address (Function.update memory (address i) b) n = (load address memory n).set i b := by
  refine List.ext_getElem (by simp) fun j hj hj' => ?_
  simp only [load, List.getElem_map, List.getElem_range, List.getElem_set, Function.update_apply]
  have hjn : j < n := by simpa using hj
  by_cases hij : i = j
  · rw [if_pos (congrArg address hij.symm), if_pos hij]
  · rw [if_neg fun h => hij (hinj hjn hi h).symm, if_neg hij]

/-- The values are loaded between what was there. -/
theorem load_storesAt (hinj : Set.InjOn address (Set.Iio n)) (h : i + values.length ≤ n) :
    load address (run (storesAt address i values) memory) n =
      (load address memory n).take i ++ values ++
        (load address memory n).drop (i + values.length) := by
  induction values generalizing i memory with
  | nil => simp [storesAt, run]
  | cons b values ih =>
    rw [List.length_cons] at h
    rw [storesAt, run, List.foldl_cons, ← run, ih (by omega), load_update address hinj (by omega)]
    exact ArrayWrites.splice_cons (by rw [length_load]; omega)

end Stores
end Techuila
