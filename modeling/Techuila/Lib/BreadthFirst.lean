import Mathlib.Data.Set.Card
import Mathlib.Logic.Relation
import Techuila.Lib.SortedTable

/-!
# Breadth-first search

A search from one node of a graph with a queue, which keeps the distance of every node it has found
in a table by the nodes' keys.

* `Inv`: what is found is reachable, and what is reachable and not found lies behind the queue.
* `search_spec`: a search that ends has found the reachable nodes.
* `search_returns`: the search ends on a finite set of nodes. `search_mono`: a larger bound on its
  rounds changes nothing.
-/

namespace Techuila
namespace BreadthFirst

variable {α κ : Type} [LinearOrder κ] (key : α → κ) (successors : α → List α)

/-- Whether a node is in the table. -/
def Found (depth : SortedTable κ Nat) (a : α) : Prop := depth.find (key a) ≠ none

instance (depth : SortedTable κ Nat) (a : α) : Decidable (Found key depth a) :=
  inferInstanceAs (Decidable (_ ≠ _))

/-- The nodes not yet found are put into the table and behind the queue. -/
def push (distance : Nat) : List α → SortedTable κ Nat × List α → SortedTable κ Nat × List α
  | [], found => found
  | a :: as, (depth, queue) =>
    if Found key depth a then push distance as (depth, queue)
    else push distance as (depth.insert (key a) distance, queue ++ [a])

/-- The rounds of the search, at most as many as the bound: `none` beyond it. -/
def search : Nat → SortedTable κ Nat × List α → Option (SortedTable κ Nat)
  | _, (depth, []) => some depth
  | 0, _ => none
  | rounds + 1, (depth, a :: queue) =>
    search rounds (push key ((depth.find (key a)).getD 0 + 1) (successors a) (depth, queue))

/-- The table and the queue in which only `start` is found. -/
def single (start : α) : SortedTable κ Nat × List α :=
  (({} : SortedTable κ Nat).insert (key start) 0, [start])

/-- There is a path from `a` to `b`. -/
def Reaches : α → α → Prop := Relation.ReflTransGen fun a b => b ∈ successors a

variable {key successors}

theorem found_insert (hkey : Function.Injective key) {depth : SortedTable κ Nat} {a b : α}
    {distance : Nat} : Found key (depth.insert (key a) distance) b ↔ b = a ∨ Found key depth b := by
  rw [Found, Found, SortedTable.find_insert]
  by_cases h : b = a
  · simp [h]
  · simp [h, hkey.ne h]

theorem push_cons_found {distance : Nat} {a : α} {as queue : List α} {depth : SortedTable κ Nat}
    (h : Found key depth a) :
    push key distance (a :: as) (depth, queue) = push key distance as (depth, queue) := if_pos h

theorem push_cons_new {distance : Nat} {a : α} {as queue : List α} {depth : SortedTable κ Nat}
    (h : ¬ Found key depth a) : push key distance (a :: as) (depth, queue) =
      push key distance as (depth.insert (key a) distance, queue ++ [a]) := if_neg h

theorem found_push (hkey : Function.Injective key) {distance : Nat} (as : List α)
    (s : SortedTable κ Nat × List α) (b : α) :
    Found key (push key distance as s).1 b ↔ b ∈ as ∨ Found key s.1 b := by
  induction as generalizing s with
  | nil => simp [push]
  | cons a as ih =>
    obtain ⟨depth, queue⟩ := s
    by_cases ha : Found key depth a
    · rw [push_cons_found ha, ih, List.mem_cons]
      refine ⟨Or.imp_left .inr, ?_⟩
      rintro ((rfl | h) | h)
      · exact .inr ha
      · exact .inl h
      · exact .inr h
    · rw [push_cons_new ha, ih, found_insert hkey, List.mem_cons]
      tauto

/-- What a round finds is in the queue after it, in front of which the old queue stands. -/
theorem queue_push (hkey : Function.Injective key) {distance : Nat} (as : List α)
    (s : SortedTable κ Nat × List α) : ∃ new, (push key distance as s).2 = s.2 ++ new ∧
      (∀ b ∈ new, b ∈ as) ∧ ∀ b ∈ as, Found key s.1 b ∨ b ∈ new := by
  induction as generalizing s with
  | nil => exact ⟨[], (List.append_nil _).symm, fun _ h => h, fun _ h => absurd h List.not_mem_nil⟩
  | cons a as ih =>
    obtain ⟨depth, queue⟩ := s
    by_cases ha : Found key depth a
    · obtain ⟨new, hq, hnew, hall⟩ := ih (depth, queue)
      rw [push_cons_found ha]
      exact ⟨new, hq, fun b hb => List.mem_cons_of_mem _ (hnew b hb),
        List.forall_mem_cons.mpr ⟨.inl ha, hall⟩⟩
    · obtain ⟨new, hq, hnew, hall⟩ := ih (depth.insert (key a) distance, queue ++ [a])
      rw [push_cons_new ha]
      refine ⟨a :: new, by rw [hq, List.append_assoc]; rfl, fun b hb => ?_,
        List.forall_mem_cons.mpr ⟨.inr List.mem_cons_self, fun b hb => ?_⟩⟩
      · rcases List.mem_cons.mp hb with rfl | hb
        · exact List.mem_cons_self
        · exact List.mem_cons_of_mem _ (hnew b hb)
      · rcases hall b hb with h | h
        · rcases (found_insert hkey).mp h with rfl | h
          · exact .inr List.mem_cons_self
          · exact .inl h
        · exact .inr (List.mem_cons_of_mem _ h)

/-- The state of a search from `start`. -/
structure Inv (key : α → κ) (successors : α → List α) (start : α)
    (s : SortedTable κ Nat × List α) : Prop where
  keys : ∀ k, s.1.find k ≠ none → ∃ a, key a = k ∧ Reaches successors start a
  start : Found key s.1 start
  queue : ∀ a ∈ s.2, Found key s.1 a
  /-- The successors of a node are found once the node has left the queue. -/
  closed : ∀ a, Found key s.1 a → a ∈ s.2 ∨ ∀ b ∈ successors a, Found key s.1 b

theorem inv_single (hkey : Function.Injective key) (start : α) :
    Inv key successors start (single key start) := by
  have hfound : ∀ {b}, Found key (single key start).1 b ↔ b = start := by
    intro b
    rw [single, found_insert hkey]
    exact or_iff_left fun h => h rfl
  refine ⟨fun k hk => ?_, hfound.mpr rfl, fun a ha => hfound.mpr (List.mem_singleton.mp ha),
    fun a ha => .inl (List.mem_singleton.mpr (hfound.mp ha))⟩
  rw [single, SortedTable.find_insert] at hk
  split at hk
  · rename_i h
    exact ⟨start, h.symm, .refl⟩
  · exact absurd rfl hk

/-- One round of the search. -/
theorem Inv.round (hkey : Function.Injective key) {start a : α} {depth : SortedTable κ Nat}
    {queue : List α} (h : Inv key successors start (depth, a :: queue)) (distance : Nat) :
    Inv key successors start (push key distance (successors a) (depth, queue)) := by
  have hreach : Reaches successors start a := by
    obtain ⟨a', ha', hr⟩ := h.keys _ (h.queue a List.mem_cons_self)
    exact hkey ha' ▸ hr
  obtain ⟨new, hq, hnew, hall⟩ :
      ∃ new, (push key distance (successors a) (depth, queue)).2 = queue ++ new ∧
        (∀ b ∈ new, b ∈ successors a) ∧ ∀ b ∈ successors a, Found key depth b ∨ b ∈ new :=
    queue_push hkey _ _
  have hfound : ∀ b, Found key (push key distance (successors a) (depth, queue)).1 b ↔
      b ∈ successors a ∨ Found key depth b := found_push hkey _ _
  have hkeys : ∀ (as : List α) (s : SortedTable κ Nat × List α),
      (∀ b ∈ as, Reaches successors start b) →
      (∀ k, s.1.find k ≠ none → ∃ a, key a = k ∧ Reaches successors start a) →
      ∀ k, (push key distance as s).1.find k ≠ none →
        ∃ a, key a = k ∧ Reaches successors start a := by
    intro as
    induction as with
    | nil => exact fun _ _ h => h
    | cons b as ih =>
      rintro ⟨depth, queue⟩ has hs
      obtain ⟨hb, has⟩ := List.forall_mem_cons.mp has
      by_cases hf : Found key depth b
      · rw [push_cons_found hf]
        exact ih _ has hs
      · rw [push_cons_new hf]
        refine ih _ has fun k hk => ?_
        rw [SortedTable.find_insert] at hk
        split at hk
        · rename_i he
          exact ⟨b, he.symm, hb⟩
        · exact hs k hk
  refine ⟨hkeys _ _ (fun b hb => hreach.tail hb) h.keys, (hfound _).mpr (.inr h.start),
    fun b hb => (hfound b).mpr ?_, fun b hb => ?_⟩
  · rw [hq] at hb
    rcases List.mem_append.mp hb with hb | hb
    · exact .inr (h.queue b (List.mem_cons_of_mem _ hb))
    · exact .inl (hnew b hb)
  · rw [hq, List.mem_append]
    -- a node found before this round is in the queue, is `a`, or was passed before
    have hold : Found key depth b → (b ∈ queue ∨ b ∈ new) ∨ ∀ c ∈ successors b,
        Found key (push key distance (successors a) (depth, queue)).1 c := by
      intro hb
      rcases h.closed b hb with hm | hs
      · rcases List.mem_cons.mp hm with rfl | hm
        · exact .inr fun c hc => (hfound c).mpr (.inl hc)
        · exact .inl (.inl hm)
      · exact .inr fun c hc => (hfound c).mpr (.inr (hs c hc))
    rcases (hfound b).mp hb with hb | hb
    · rcases hall b hb with hb | hb
      · exact hold hb
      · exact .inl (.inr hb)
    · exact hold hb

/-- With an empty queue, everything that can be reached is found. -/
theorem Inv.closed_nil {start : α} {depth : SortedTable κ Nat}
    (h : Inv key successors start (depth, [])) (k : κ) :
    depth.find k ≠ none ↔ ∃ a, key a = k ∧ Reaches successors start a := by
  refine ⟨h.keys k, ?_⟩
  rintro ⟨a, rfl, hr⟩
  induction hr with
  | refl => exact h.start
  | tail _ hab ih => exact (h.closed _ ih).resolve_left List.not_mem_nil _ hab

/-- A search that ends has found the nodes that can be reached, and its table has no other keys. -/
theorem search_spec (hkey : Function.Injective key) {start : α} (rounds : Nat)
    {s : SortedTable κ Nat × List α} (h : Inv key successors start s) {depth : SortedTable κ Nat}
    (hs : search key successors rounds s = some depth) :
    ∀ k, depth.find k ≠ none ↔ ∃ a, key a = k ∧ Reaches successors start a := by
  induction rounds generalizing s with
  | zero =>
    obtain ⟨depth', queue⟩ := s
    cases queue with
    | nil =>
      cases hs
      exact h.closed_nil
    | cons => cases hs
  | succ rounds ih =>
    obtain ⟨depth', queue⟩ := s
    cases queue with
    | nil =>
      cases hs
      exact h.closed_nil
    | cons a queue => exact ih (h.round hkey _) hs

theorem search_mono {rounds rounds' : Nat} (hle : rounds ≤ rounds')
    {s : SortedTable κ Nat × List α} {depth : SortedTable κ Nat}
    (h : search key successors rounds s = some depth) :
    search key successors rounds' s = some depth := by
  induction rounds generalizing rounds' s with
  | zero =>
    obtain ⟨depth', queue⟩ := s
    cases queue with
    | nil => cases rounds' <;> exact h
    | cons => cases h
  | succ rounds ih =>
    obtain ⟨rounds', rfl⟩ := Nat.exists_eq_succ_of_ne_zero (Nat.ne_of_gt (Nat.lt_of_lt_of_le
      (Nat.succ_pos rounds) hle))
    obtain ⟨depth', queue⟩ := s
    cases queue with
    | nil => exact h
    | cons a queue => exact ih (Nat.le_of_succ_le_succ hle) h

/-- Each new node in the queue is one node less that is not found. -/
theorem push_measure [Finite α] (hkey : Function.Injective key) {distance : Nat} (as : List α)
    (s : SortedTable κ Nat × List α) :
    (push key distance as s).2.length + {b | ¬ Found key (push key distance as s).1 b}.ncard ≤
      s.2.length + {b | ¬ Found key s.1 b}.ncard := by
  induction as generalizing s with
  | nil => exact Nat.le_refl _
  | cons a as ih =>
    obtain ⟨depth, queue⟩ := s
    by_cases ha : Found key depth a
    · rw [push_cons_found ha]
      exact ih _
    · rw [push_cons_new ha]
      refine (ih _).trans ?_
      have hset : {b | ¬ Found key (depth.insert (key a) distance) b} =
          {b | ¬ Found key depth b} \ {a} := by
        ext b
        simp only [Set.mem_ofPred_eq, found_insert hkey, Set.mem_sdiff, Set.mem_singleton_iff]
        tauto
      have hcard := Set.ncard_sdiff_singleton_add_one (s := {b | ¬ Found key depth b}) (a := a) ha
        (Set.toFinite _)
      simp only [hset, List.length_append, List.length_singleton]
      omega

/-- On finitely many nodes the search ends. -/
theorem search_returns [Finite α] (hkey : Function.Injective key) (rounds : Nat)
    (s : SortedTable κ Nat × List α)
    (h : s.2.length + {b | ¬ Found key s.1 b}.ncard ≤ rounds) :
    ∃ depth, search key successors rounds s = some depth := by
  induction rounds generalizing s with
  | zero =>
    obtain ⟨depth, queue⟩ := s
    cases queue with
    | nil => exact ⟨depth, rfl⟩
    | cons =>
      rw [List.length_cons] at h
      omega
  | succ rounds ih =>
    obtain ⟨depth, queue⟩ := s
    cases queue with
    | nil => exact ⟨depth, rfl⟩
    | cons a queue =>
      refine ih _ ((push_measure hkey _ _).trans ?_)
      simp only [List.length_cons] at h ⊢
      omega

/-- The search from one node: it ends, and from some bound on its result does not depend on the
bound. -/
theorem search_single [Finite α] (hkey : Function.Injective key) (start : α) :
    ∃ depth : SortedTable κ Nat,
      (∃ n, ∀ rounds ≥ n, search key successors rounds (single key start) = some depth) ∧
      ∀ k, depth.find k ≠ none ↔ ∃ a, key a = k ∧ Reaches successors start a := by
  obtain ⟨depth, hd⟩ := search_returns hkey _ (single key start)
    (Nat.le_refl _)
  exact ⟨depth, ⟨_, fun rounds hr => search_mono hr hd⟩,
    search_spec hkey _ (inv_single hkey start) hd⟩

end BreadthFirst
end Techuila
