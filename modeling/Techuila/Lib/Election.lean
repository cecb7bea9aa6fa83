import Mathlib.Data.Finset.Card
import Mathlib.Logic.Relation
import Mathlib.Order.Basic

/-!
# Elections by majority vote whose votes may be forgotten

Nodes `ν` elect leaders for terms `τ`. A node has one recorded vote for its term. It loses the
record when it moves to a later term, and also when it steps down for a leader of its own term
(`Step.stepDown`, possible only under `forget`): after that it may vote again in the same term.
A node that acknowledges a leader is counted like a voter.

* `Step.voted`, `Step.led`, `Step.pledged` and the lemmas next to them: what one step can do.
* `Moves`: a sequence of steps of one node.
* `Inv`, `Inv.steps`: the invariant of the runs. Every leader has a majority of nodes that voted
  for it alone in its term (`Inv.quorum`).
* `Inv.led_unique`: a term has at most one leader, with or without `forget`.
* `Faithful.steps`: without `forget`, a vote is on record until the term ends.
-/

namespace Techuila
namespace Election

inductive Role where
  | follower
  | candidate
  | leader
  deriving DecidableEq

/-- What a node knows of the election: its vote in its term and the votes that it counted. -/
structure Ballot (ν τ : Type) where
  role : Role
  term : τ
  votedFor : Option ν
  votes : Finset ν

/-- The ballots, and everything that ever happened: `(v, t, c)` is a vote or an acknowledgement
of `v` for `c` in term `t`, and `(t, l)` is a leader `l` of term `t`. -/
structure State (ν τ : Type) where
  ballot : ν → Ballot ν τ
  voted : Set (ν × τ × ν)
  acked : Set (ν × τ × ν)
  led : Set (τ × ν)

variable {ν τ : Type} [DecidableEq ν]

/-- The state `s` with the ballot `b` for node `i`. -/
def State.set (s : State ν τ) (i : ν) (b : Ballot ν τ) : State ν τ :=
  { s with ballot := Function.update s.ballot i b }

@[simp] theorem State.set_self (s : State ν τ) (i : ν) (b : Ballot ν τ) :
    (s.set i b).ballot i = b := Function.update_self ..

theorem State.set_ne (s : State ν τ) {i j : ν} (b : Ballot ν τ) (h : j ≠ i) :
    (s.set i b).ballot j = s.ballot j := Function.update_of_ne h ..

variable [LinearOrder τ]

/-- One step of a cluster with the nodes `M`. -/
inductive Step (M : Finset ν) (forget : Prop) (s : State ν τ) : State ν τ → Prop
  | campaign (i : ν) (t : τ) : i ∈ M → (s.ballot i).term < t → Step M forget s
      { s.set i ⟨.candidate, t, some i, {i}⟩ with voted := insert (i, t, i) s.voted }
  | follow (i : ν) (t : τ) : (s.ballot i).term < t →
      Step M forget s (s.set i ⟨.follower, t, none, ∅⟩)
  | stepDown (i l : ν) : forget → (s.ballot i).role ≠ .follower → l ≠ i →
      ((s.ballot i).term, l) ∈ s.led →
      Step M forget s (s.set i ⟨.follower, (s.ballot i).term, none, ∅⟩)
  | grant (i c : ν) : i ∈ M → (s.ballot i).votedFor = none ∨ (s.ballot i).votedFor = some c →
      Step M forget s { s.set i { s.ballot i with votedFor := some c } with
        voted := insert (i, (s.ballot i).term, c) s.voted }
  | ack (i l : ν) : ((s.ballot i).term, l) ∈ s.led →
      Step M forget s { s with acked := insert (i, (s.ballot i).term, l) s.acked }
  | count (i v : ν) : (s.ballot i).role = .candidate →
      (v, (s.ballot i).term, i) ∈ s.voted ∪ s.acked →
      Step M forget s (s.set i { s.ballot i with votes := insert v (s.ballot i).votes })
  | win (i : ν) : (s.ballot i).role = .candidate → M.card < 2 * (s.ballot i).votes.card →
      Step M forget s { s.set i { s.ballot i with role := .leader } with
        led := insert ((s.ballot i).term, i) s.led }

/-- A run of any length. -/
abbrev Steps (M : Finset ν) (forget : Prop) : State ν τ → State ν τ → Prop :=
  Relation.ReflTransGen (Step M forget)

/-- Node `v` is past term `t`, or in it with its vote for `c` on record. -/
def State.Pledged (s : State ν τ) (v : ν) (t : τ) (c : ν) : Prop :=
  t < (s.ballot v).term ∨ (t = (s.ballot v).term ∧ (s.ballot v).votedFor = some c)

/-! ## What one step can do -/

section Step

variable {M : Finset ν} {forget : Prop} {s s' : State ν τ}

/-- How the ballot of node `j` changes, one case for each step of `j`. -/
theorem Step.ballot (h : Step M forget s s') (j : ν) :
    s'.ballot j = s.ballot j ∨
    (j ∈ M ∧ ∃ t, (s.ballot j).term < t ∧ s'.ballot j = ⟨.candidate, t, some j, {j}⟩ ∧
      (j, t, j) ∈ s'.voted) ∨
    (∃ t, (s.ballot j).term < t ∧ s'.ballot j = ⟨.follower, t, none, ∅⟩) ∨
    (forget ∧ (s.ballot j).role ≠ .follower ∧ (∃ l ≠ j, ((s.ballot j).term, l) ∈ s.led) ∧
      s'.ballot j = ⟨.follower, (s.ballot j).term, none, ∅⟩) ∨
    (∃ c, ((s.ballot j).votedFor = none ∨ (s.ballot j).votedFor = some c) ∧
      s'.ballot j = { s.ballot j with votedFor := some c }) ∨
    ((s.ballot j).role = .candidate ∧ ∃ v, (v, (s.ballot j).term, j) ∈ s.voted ∪ s.acked ∧
      s'.ballot j = { s.ballot j with votes := insert v (s.ballot j).votes }) ∨
    ((s.ballot j).role = .candidate ∧ s'.ballot j = { s.ballot j with role := .leader } ∧
      ((s.ballot j).term, j) ∈ s'.led) := by
  cases h with
  | campaign i t hi ht =>
    by_cases e : j = i
    · subst e
      exact .inr (.inl ⟨hi, t, ht, s.set_self j _, .inl rfl⟩)
    · exact .inl (s.set_ne _ e)
  | follow i t ht =>
    by_cases e : j = i
    · subst e
      exact .inr (.inr (.inl ⟨t, ht, s.set_self j _⟩))
    · exact .inl (s.set_ne _ e)
  | stepDown i l hf hr hl hled =>
    by_cases e : j = i
    · subst e
      exact .inr (.inr (.inr (.inl ⟨hf, hr, ⟨l, hl, hled⟩, s.set_self j _⟩)))
    · exact .inl (s.set_ne _ e)
  | grant i c hi hv =>
    by_cases e : j = i
    · subst e
      exact .inr (.inr (.inr (.inr (.inl ⟨c, hv, s.set_self j _⟩))))
    · exact .inl (s.set_ne _ e)
  | ack i l hl => exact .inl rfl
  | count i v hc hv =>
    by_cases e : j = i
    · subst e
      exact .inr (.inr (.inr (.inr (.inr (.inl ⟨hc, v, hv, s.set_self j _⟩)))))
    · exact .inl (s.set_ne _ e)
  | win i hc hm =>
    by_cases e : j = i
    · subst e
      exact .inr (.inr (.inr (.inr (.inr (.inr ⟨hc, s.set_self j _, .inl rfl⟩)))))
    · exact .inl (s.set_ne _ e)

theorem Step.term_le (h : Step M forget s s') (j : ν) :
    (s.ballot j).term ≤ (s'.ballot j).term := by
  obtain e | ⟨-, t, ht, e, -⟩ | ⟨t, ht, e⟩ | ⟨-, -, -, e⟩ | ⟨c, -, e⟩ | ⟨-, v, -, e⟩ | ⟨-, e, -⟩ :=
    h.ballot j
  all_goals rw [e]
  · exact ht.le
  · exact ht.le

/-- A new vote is the recorded one, and replaces no other vote of its term. -/
theorem Step.voted (h : Step M forget s s') {v c : ν} {t : τ} (hv : (v, t, c) ∈ s'.voted) :
    (v, t, c) ∈ s.voted ∨ (v ∈ M ∧ t = (s'.ballot v).term ∧ (s'.ballot v).votedFor = some c ∧
      ((s.ballot v).term < t ∨ ((s.ballot v).term = t ∧
        ((s.ballot v).votedFor = none ∨ (s.ballot v).votedFor = some c)))) := by
  cases h with
  | campaign i t hi ht =>
    rcases hv with e | hv
    · cases e
      exact .inr ⟨hi, by simp [State.set], by simp [State.set], .inl ht⟩
    · exact .inl hv
  | grant i c hi hc =>
    rcases hv with e | hv
    · cases e
      exact .inr ⟨hi, by simp [State.set], by simp [State.set], .inr ⟨rfl, hc⟩⟩
    · exact .inl hv
  | follow | stepDown | ack | count | win => exact .inl hv

theorem Step.voted_mono (h : Step M forget s s') : s.voted ⊆ s'.voted := by
  cases h with
  | campaign | grant => exact Set.subset_insert _ _
  | follow | stepDown | ack | count | win => exact subset_rfl

theorem Step.acked (h : Step M forget s s') {v l : ν} {t : τ} (ha : (v, t, l) ∈ s'.acked) :
    (v, t, l) ∈ s.acked ∨ (t, l) ∈ s.led := by
  cases h with
  | ack i l hl =>
    rcases ha with e | ha
    · cases e; exact .inr hl
    · exact .inl ha
  | campaign | follow | stepDown | grant | count | win => exact .inl ha

theorem Step.led (h : Step M forget s s') {t : τ} {l : ν} (hl : (t, l) ∈ s'.led) :
    (t, l) ∈ s.led ∨ ((s.ballot l).role = .candidate ∧ t = (s.ballot l).term ∧
      M.card < 2 * (s.ballot l).votes.card ∧ (s'.ballot l).role = .leader) := by
  cases h with
  | win i hc hm =>
    rcases hl with e | hl
    · cases e; exact .inr ⟨hc, rfl, hm, by simp [State.set]⟩
    · exact .inl hl
  | campaign | follow | stepDown | grant | ack | count => exact .inl hl

theorem Step.led_mono (h : Step M forget s s') : s.led ⊆ s'.led := by
  cases h with
  | win => exact Set.subset_insert _ _
  | campaign | follow | stepDown | grant | ack | count => exact subset_rfl

theorem Step.acked_mono (h : Step M forget s s') : s.acked ⊆ s'.acked := by
  cases h with
  | ack => exact Set.subset_insert _ _
  | campaign | follow | stepDown | grant | count | win => exact subset_rfl

/-- A record is lost only by stepping down for another leader of the term. -/
theorem Step.pledged (h : Step M forget s s') {v c : ν} {t : τ} (hp : s.Pledged v t c) :
    s'.Pledged v t c ∨ (forget ∧ t = (s.ballot v).term ∧ (s.ballot v).role ≠ .follower ∧
      (s.ballot v).votedFor = some c ∧ ∃ l ≠ v, (t, l) ∈ s.led) := by
  rcases hp with hlt | ⟨ht, hv⟩
  · exact .inl (.inl (hlt.trans_le (h.term_le v)))
  obtain e | ⟨-, t', ht', e, -⟩ | ⟨t', ht', e⟩ | ⟨hf, hr, hl, e⟩ | ⟨c', hc, e⟩ | ⟨-, u, -, e⟩ |
    ⟨-, e, -⟩ := h.ballot v
  · exact .inl (.inr (by rw [e]; exact ⟨ht, hv⟩))
  · exact .inl (.inl (by rw [e, ht]; exact ht'))
  · exact .inl (.inl (by rw [e, ht]; exact ht'))
  · exact .inr ⟨hf, ht, hr, hv, by rw [ht]; exact hl⟩
  · have ec : c' = c := by
      rcases hc with hc | hc <;> rw [hv] at hc
      · cases hc
      · exact (Option.some.inj hc).symm
    exact .inl (.inr (by rw [e, ec]; exact ⟨ht, rfl⟩))
  · exact .inl (.inr (by rw [e]; exact ⟨ht, hv⟩))
  · exact .inl (.inr (by rw [e]; exact ⟨ht, hv⟩))

theorem Steps.led_mono (hs : Steps M forget s s') : s.led ⊆ s'.led := by
  induction hs with
  | refl => exact subset_rfl
  | tail _ hs ih => exact ih.trans hs.led_mono

theorem Steps.voted_mono (hs : Steps M forget s s') : s.voted ⊆ s'.voted := by
  induction hs with
  | refl => exact subset_rfl
  | tail _ hs ih => exact ih.trans hs.voted_mono

theorem Steps.acked_mono (hs : Steps M forget s s') : s.acked ⊆ s'.acked := by
  induction hs with
  | refl => exact subset_rfl
  | tail _ hs ih => exact ih.trans hs.acked_mono

end Step

/-! ## Steps of one node -/

/-- Steps that leave node `i` with the ballot `b` and do not touch the other ballots. -/
structure Moves (M : Finset ν) (forget : Prop) (s : State ν τ) (i : ν) (b : Ballot ν τ)
    (s' : State ν τ) : Prop where
  steps : Steps M forget s s'
  self : s'.ballot i = b
  others : ∀ j ≠ i, s'.ballot j = s.ballot j

namespace Moves

variable {M : Finset ν} {forget : Prop} {s s' s'' : State ν τ} {i : ν} {b b' : Ballot ν τ}

theorem refl (hb : s.ballot i = b) : Moves M forget s i b s := ⟨.refl, hb, fun _ _ => rfl⟩

theorem trans (h : Moves M forget s i b s') (h' : Moves M forget s' i b' s'') :
    Moves M forget s i b' s'' :=
  ⟨h.steps.trans h'.steps, h'.self, fun j hj => (h'.others j hj).trans (h.others j hj)⟩

theorem set (h : Step M forget s s') (hs : s'.ballot = (s.set i b).ballot) :
    Moves M forget s i b s' :=
  ⟨.single h, by rw [hs, State.set_self], fun j hj => by rw [hs, State.set_ne _ _ hj]⟩

end Moves

/-! ## The invariant -/

section Invariant

variable {M : Finset ν} {forget : Prop} {s s' : State ν τ}

/-- No node voted and no node led yet. -/
structure Init (s : State ν τ) : Prop where
  role : ∀ i, (s.ballot i).role = .follower
  voted : s.voted = ∅
  acked : s.acked = ∅
  led : s.led = ∅

/-- The nodes `Q` are a majority of `M`, voted for `l` alone in term `t`, and have it on record. -/
structure Majority (M : Finset ν) (s : State ν τ) (t : τ) (l : ν) (Q : Finset ν) : Prop where
  subset : Q ⊆ M
  card : M.card < 2 * Q.card
  pledged : ∀ v ∈ Q, s.Pledged v t l
  voted : ∀ v ∈ Q, (v, t, l) ∈ s.voted
  alone : ∀ v ∈ Q, ∀ c, (v, t, c) ∈ s.voted → c = l

structure Inv (M : Finset ν) (s : State ν τ) : Prop where
  voted_mem : ∀ {v t c}, (v, t, c) ∈ s.voted → v ∈ M
  voted_le : ∀ {v t c}, (v, t, c) ∈ s.voted → t ≤ (s.ballot v).term
  acked_led : ∀ {v t l}, (v, t, l) ∈ s.acked → (t, l) ∈ s.led
  led_le : ∀ {t l}, (t, l) ∈ s.led → t ≤ (s.ballot l).term
  active : ∀ {i}, (s.ballot i).role ≠ .follower → (s.ballot i).votedFor = some i
  leader : ∀ {i}, (s.ballot i).role = .leader → ((s.ballot i).term, i) ∈ s.led
  candidate : ∀ {i}, (s.ballot i).role = .candidate → ((s.ballot i).term, i) ∉ s.led
  counted : ∀ {i}, (s.ballot i).role = .candidate →
    ∀ v ∈ (s.ballot i).votes, (v, (s.ballot i).term, i) ∈ s.voted
  /-- As long as a term has no leader, no vote of it is forgotten. -/
  vote : ∀ {t}, (∀ l, (t, l) ∉ s.led) → ∀ {v c}, (v, t, c) ∈ s.voted → s.Pledged v t c
  unique : ∀ {t}, (∀ l, (t, l) ∉ s.led) →
    ∀ {v c c'}, (v, t, c) ∈ s.voted → (v, t, c') ∈ s.voted → c = c'
  quorum : ∀ {t l}, (t, l) ∈ s.led → ∃ Q, Majority M s t l Q

theorem exists_mem_of_majorities {Q Q' : Finset ν} (h : Q ⊆ M) (h' : Q' ⊆ M)
    (hc : M.card < 2 * Q.card) (hc' : M.card < 2 * Q'.card) : ∃ v, v ∈ Q ∧ v ∈ Q' := by
  obtain ⟨v, hv⟩ := Finset.inter_nonempty_of_card_lt_card_add_card h h' (by omega)
  exact ⟨v, Finset.mem_inter.mp hv⟩

namespace Inv

omit [DecidableEq ν] in
theorem init (h : Init s) : Inv M s where
  voted_mem hv := by rw [h.voted] at hv; cases hv
  voted_le hv := by rw [h.voted] at hv; cases hv
  acked_led ha := by rw [h.acked] at ha; cases ha
  led_le hl := by rw [h.led] at hl; cases hl
  active hi := absurd (h.role _) hi
  leader hi := by rw [h.role] at hi; cases hi
  candidate hi := by rw [h.role] at hi; cases hi
  counted hi := by rw [h.role] at hi; cases hi
  vote _ _ _ hv := by rw [h.voted] at hv; cases hv
  unique _ _ _ _ hv := by rw [h.voted] at hv; cases hv
  quorum hl := by rw [h.led] at hl; cases hl

/-- A term has at most one leader. -/
theorem led_unique (h : Inv M s) {t : τ} {a b : ν} (ha : (t, a) ∈ s.led) (hb : (t, b) ∈ s.led) :
    a = b := by
  obtain ⟨Q, hQ⟩ := h.quorum ha
  obtain ⟨Q', hQ'⟩ := h.quorum hb
  obtain ⟨v, hv, hv'⟩ := exists_mem_of_majorities hQ.subset hQ'.subset hQ.card hQ'.card
  exact hQ'.alone v hv' a (hQ.voted v hv)

/-- A candidate with a majority of votes has no rival that leads its term. -/
theorem not_led (h : Inv M s) {i : ν} (hi : (s.ballot i).role = .candidate)
    (hc : M.card < 2 * (s.ballot i).votes.card) (l : ν) : ((s.ballot i).term, l) ∉ s.led := by
  intro hl
  obtain ⟨Q, hQ⟩ := h.quorum hl
  have hsub : (s.ballot i).votes ⊆ M := fun v hv => h.voted_mem (h.counted hi v hv)
  obtain ⟨v, hv, hv'⟩ := exists_mem_of_majorities hQ.subset hsub hQ.card hc
  have e : i = l := hQ.alone v hv i (h.counted hi v hv')
  exact h.candidate hi (e ▸ hl)

/-! ### One step -/

section Preservation

variable (h : Inv M s) (hs : Step M forget s s')
include h hs

theorem step_voted_le {v c : ν} {t : τ} (hv : (v, t, c) ∈ s'.voted) : t ≤ (s'.ballot v).term := by
  obtain hv | ⟨-, ht, -⟩ := hs.voted hv
  · exact (h.voted_le hv).trans (hs.term_le v)
  · exact ht.le

theorem step_led_le {t : τ} {l : ν} (hl : (t, l) ∈ s'.led) : t ≤ (s'.ballot l).term := by
  obtain hl | ⟨-, ht, -⟩ := hs.led hl
  · exact (h.led_le hl).trans (hs.term_le l)
  · exact ht.le.trans (hs.term_le l)

theorem step_active {i : ν} (hi : (s'.ballot i).role ≠ .follower) :
    (s'.ballot i).votedFor = some i := by
  obtain e | ⟨-, t, -, e, -⟩ | ⟨t, -, e⟩ | ⟨-, -, -, e⟩ | ⟨c, hc, e⟩ | ⟨hc, v, -, e⟩ | ⟨hc, e, -⟩ :=
    hs.ballot i
  all_goals rw [e] at hi ⊢
  · exact h.active hi
  · exact absurd rfl hi
  · exact absurd rfl hi
  · -- an active node has a vote on record, so it can only repeat it
    have hv := h.active hi
    rcases hc with hc | hc <;> rw [hv] at hc
    · cases hc
    · exact hc.symm
  · exact h.active hi
  · exact h.active (by rw [hc]; decide)

theorem step_leader {i : ν} (hi : (s'.ballot i).role = .leader) :
    ((s'.ballot i).term, i) ∈ s'.led := by
  obtain e | ⟨-, t, -, e, -⟩ | ⟨t, -, e⟩ | ⟨-, -, -, e⟩ | ⟨c, -, e⟩ | ⟨-, v, -, e⟩ | ⟨-, e, hl⟩ :=
    hs.ballot i
  all_goals rw [e] at hi ⊢
  · exact hs.led_mono (h.leader hi)
  · cases hi
  · cases hi
  · cases hi
  · exact hs.led_mono (h.leader hi)
  · exact hs.led_mono (h.leader hi)
  · exact hl

/-- A candidate is a candidate of the term before the step, or it just started to be one. -/
theorem step_candidate_cases {i : ν} (hi : (s'.ballot i).role = .candidate) :
    ((s.ballot i).role = .candidate ∧ (s'.ballot i).term = (s.ballot i).term ∧
      ∀ v ∈ (s'.ballot i).votes, (v, (s.ballot i).term, i) ∈ s.voted) ∨
    ((s.ballot i).term < (s'.ballot i).term ∧ (s'.ballot i).votes = {i} ∧
      (i, (s'.ballot i).term, i) ∈ s'.voted) := by
  obtain e | ⟨-, t, ht, e, hv⟩ | ⟨t, -, e⟩ | ⟨-, -, -, e⟩ | ⟨c, -, e⟩ | ⟨hc, v, hv, e⟩ | ⟨-, e, -⟩ :=
    hs.ballot i
  all_goals rw [e] at hi ⊢
  · exact .inl ⟨hi, rfl, h.counted hi⟩
  · exact .inr ⟨ht, rfl, hv⟩
  · cases hi
  · cases hi
  · exact .inl ⟨hi, rfl, h.counted hi⟩
  · refine .inl ⟨hc, rfl, fun u hu => ?_⟩
    rcases Finset.mem_insert.mp hu with rfl | hu
    · -- an acknowledgement is sent to a leader, which is no candidate
      exact hv.resolve_right fun ha => h.candidate hc (h.acked_led ha)
    · exact h.counted hc u hu
  · cases hi

theorem step_candidate {i : ν} (hi : (s'.ballot i).role = .candidate) :
    ((s'.ballot i).term, i) ∉ s'.led := by
  intro hl
  obtain hl | ⟨-, -, -, hr⟩ := hs.led hl
  · obtain ⟨hc, ht, -⟩ | ⟨ht, -⟩ := h.step_candidate_cases hs hi
    · exact h.candidate hc (ht ▸ hl)
    · exact absurd (h.led_le hl) (not_le.mpr ht)
  · rw [hi] at hr; cases hr

theorem step_counted {i : ν} (hi : (s'.ballot i).role = .candidate) :
    ∀ v ∈ (s'.ballot i).votes, (v, (s'.ballot i).term, i) ∈ s'.voted := by
  intro v hv
  obtain ⟨hc, ht, hvs⟩ | ⟨ht, hvs, hi'⟩ := h.step_candidate_cases hs hi
  · rw [ht]; exact hs.voted_mono (hvs v hv)
  · rw [hvs, Finset.mem_singleton] at hv
    exact hv ▸ hi'

theorem step_vote {t : τ} (hn : ∀ l, (t, l) ∉ s.led) {v c : ν} (hv : (v, t, c) ∈ s'.voted) :
    s'.Pledged v t c := by
  obtain hv | ⟨-, ht, hc, -⟩ := hs.voted hv
  · exact (hs.pledged (h.vote hn hv)).resolve_right fun ⟨_, _, _, _, l, _, hl⟩ => hn l hl
  · exact .inr ⟨ht, hc⟩

theorem step_unique {t : τ} (hn : ∀ l, (t, l) ∉ s.led) {v c c' : ν} (hv : (v, t, c) ∈ s'.voted)
    (hv' : (v, t, c') ∈ s'.voted) : c = c' := by
  -- a new vote agrees with every older one of its term
  have key : ∀ {a b : ν}, (v, t, a) ∈ s.voted →
      ((s.ballot v).term < t ∨ ((s.ballot v).term = t ∧
        ((s.ballot v).votedFor = none ∨ (s.ballot v).votedFor = some b))) → a = b := by
    intro a b ha hb
    rcases h.vote hn ha with hp | ⟨hp, hva⟩ <;> rcases hb with hb | ⟨hb, hb'⟩
    · exact absurd hb hp.not_gt
    · exact absurd hb hp.ne'
    · exact absurd hp hb.ne'
    · rw [hva] at hb'
      rcases hb' with hb' | hb'
      · cases hb'
      · exact Option.some.inj hb'
  obtain ho | ⟨-, -, hc, hk⟩ := hs.voted hv <;> obtain ho' | ⟨-, -, hc', hk'⟩ := hs.voted hv'
  · exact h.unique hn ho ho'
  · exact key ho hk'
  · exact (key ho' hk).symm
  · exact Option.some.inj (hc.symm.trans hc')

/-- A majority for a leader stays one. -/
theorem step_majority {t : τ} {l : ν} (hl : (t, l) ∈ s.led) {Q : Finset ν}
    (hQ : Majority M s t l Q) : Majority M s' t l Q where
  subset := hQ.subset
  card := hQ.card
  pledged v hv := by
    refine (hs.pledged (hQ.pledged v hv)).resolve_right ?_
    rintro ⟨-, -, hr, hvl, l', hne, hl'⟩
    -- an active node that voted for the leader is the leader, and has no rival to step down for
    have e : v = l := Option.some.inj ((h.active hr).symm.trans hvl)
    exact hne ((h.led_unique hl' hl).trans e.symm)
  voted v hv := hs.voted_mono (hQ.voted v hv)
  alone v hv c hc := by
    obtain hc | ⟨-, -, -, hk⟩ := hs.voted hc
    · exact hQ.alone v hv c hc
    rcases hQ.pledged v hv with hp | ⟨hp, hvl⟩ <;> rcases hk with hk | ⟨hk, hk'⟩
    · exact absurd hk hp.not_gt
    · exact absurd hk hp.ne'
    · exact absurd hp hk.ne'
    · rw [hvl] at hk'
      rcases hk' with hk' | hk'
      · cases hk'
      · exact (Option.some.inj hk').symm

theorem step_quorum {t : τ} {l : ν} (hl : (t, l) ∈ s'.led) : ∃ Q, Majority M s' t l Q := by
  obtain hl | ⟨hc, rfl, hm, -⟩ := hs.led hl
  · obtain ⟨Q, hQ⟩ := h.quorum hl
    exact ⟨Q, h.step_majority hs hl hQ⟩
  · -- the counted votes are the majority: the term had no leader, so none was forgotten
    have hn := h.not_led hc hm
    have hv : ∀ v ∈ (s.ballot l).votes, (v, (s.ballot l).term, l) ∈ s'.voted :=
      fun v hv => hs.voted_mono (h.counted hc v hv)
    exact ⟨(s.ballot l).votes, fun v hv => h.voted_mem (h.counted hc v hv), hm,
      fun v hq => h.step_vote hs hn (hv v hq), hv,
      fun v hq c hvc => h.step_unique hs hn hvc (hv v hq)⟩

theorem step : Inv M s' where
  voted_mem hv := (hs.voted hv).elim h.voted_mem And.left
  voted_le := h.step_voted_le hs
  acked_led ha := hs.led_mono ((hs.acked ha).elim h.acked_led id)
  led_le := h.step_led_le hs
  active := h.step_active hs
  leader := h.step_leader hs
  candidate := h.step_candidate hs
  counted := h.step_counted hs
  vote hn := h.step_vote hs fun l hl => hn l (hs.led_mono hl)
  unique hn := h.step_unique hs fun l hl => hn l (hs.led_mono hl)
  quorum := h.step_quorum hs

end Preservation

theorem steps (h : Inv M s) (hs : Steps M forget s s') : Inv M s' := by
  induction hs with
  | refl => exact h
  | tail _ hs ih => exact ih.step hs

end Inv

/-! ## Runs that forget nothing -/

/-- Every vote is on record until its term ends. -/
def Faithful (s : State ν τ) : Prop := ∀ {v t c}, (v, t, c) ∈ s.voted → s.Pledged v t c

theorem Faithful.step (h : Faithful s) (hs : Step M False s s') : Faithful s' := by
  intro v t c hv
  obtain hv | ⟨-, ht, hc, -⟩ := hs.voted hv
  · exact (hs.pledged (h hv)).resolve_right fun hf => hf.1
  · exact .inr ⟨ht, hc⟩

theorem Faithful.steps (h : Faithful s) (hs : Steps M False s s') : Faithful s' := by
  induction hs with
  | refl => exact h
  | tail _ hs ih => exact Faithful.step ih hs

end Invariant

end Election
end Techuila
